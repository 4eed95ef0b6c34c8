import Mathlib.Data.List.Basic

/-!
# Threads that share data and named mutexes

A *program* sends every program point to one instruction: lock a mutex, unlock a mutex, or act on
the shared data.  Any number of threads run the same program; a schedule is a list of
`(thread, input)` pairs, and `run` executes it.

A mutex is a default (non-recursive) pthread mutex: a thread that locks a mutex it already owns has
no further step.  A condition variable, and a futex, is the list of the threads that wait on it
(`WaitSet`): a thread waits by joining the list and goes on when it is no longer in it, or
spuriously.  Which waiter a signal wakes is not specified: `target` stands for the choice.  A
broadcast empties the list.
-/

namespace SystemsLab.Concurrent

open Function Option

variable {M D P I : Type*}

/-! ## Instructions and configurations -/

/-- The instruction at a program point.  A `lock` may `mark` the data in the instant it gets the
mutex (bookkeeping of who was first; `noMark` where there is none).  An `act` reads its thread, an
external input (a call request, the result of `rand`, ...), the owners of the mutexes and the shared
data; it is disabled where it returns `none`. -/
inductive Instr (M D P I : Type*) where
  | lock (m : M) (mark : Nat → D → D) (next : P)
  | unlock (m : M) (next : P)
  | act (f : Nat → I → (M → Option Nat) → D → Option (D × P))

def noMark : Nat → D → D := fun _ d => d

structure Config (M D P : Type*) where
  owner : M → Option Nat
  pc : Nat → P
  data : D

def Config.start (d : D) (p : P) : Config M D P :=
  { owner := fun _ => none
    pc := fun _ => p
    data := d }

/-- The next configuration after thread `a.1` executes its instruction on input `a.2`. -/
def step [DecidableEq M] (code : P → Instr M D P I) (c : Config M D P) (a : Nat × I) :
    Option (Config M D P) :=
  match code (c.pc a.1) with
  | .lock m mark next =>
    match c.owner m with
    | none =>
      some
        { owner := update c.owner m (some a.1)
          pc := update c.pc a.1 next
          data := mark a.1 c.data }
    | some _ => none
  | .unlock m next =>
    some
      { owner := update c.owner m none
        pc := update c.pc a.1 next
        data := c.data }
  | .act f =>
    match f a.1 a.2 c.owner c.data with
    | none => none
    | some (d, p) =>
      some
        { owner := c.owner
          pc := update c.pc a.1 p
          data := d }

def run [DecidableEq M] (code : P → Instr M D P I) :
    Config M D P → List (Nat × I) → Option (Config M D P)
  | c, [] => some c
  | c, a :: as =>
    match step code c a with
    | none => none
    | some c' => run code c' as

/-- Every step of the schedule satisfies `ok` (of its thread and input, and of the shared data and
the program point before it). -/
def Meets [DecidableEq M] (code : P → Instr M D P I) (ok : Nat → I → D → P → Prop) :
    Config M D P → List (Nat × I) → Prop
  | _, [] => True
  | c, a :: as => ok a.1 a.2 c.data (c.pc a.1) ∧ ∀ c', step code c a = some c' → Meets code ok c' as

/-- Every configuration on the way through the schedule satisfies `Q`. -/
def Always [DecidableEq M] (code : P → Instr M D P I) (Q : Config M D P → Prop) :
    Config M D P → List (Nat × I) → Prop
  | c, [] => Q c
  | c, a :: as => Q c ∧ ∀ c', step code c a = some c' → Always code Q c' as

/-- What the steps of a run yield, in their order. -/
def yields {α : Type*} [DecidableEq M] (code : P → Instr M D P I) (f : Nat → D → P → List α) :
    Config M D P → List (Nat × I) → List α
  | _, [] => []
  | c, a :: as => f a.1 c.data (c.pc a.1) ++ (step code c a).elim [] fun c' => yields code f c' as

section

variable [DecidableEq M] {code : P → Instr M D P I}

/-! ## What one step can do -/

variable {c c' : Config M D P} {th : Nat} {i : I} {as : List (Nat × I)}

/-- Inversion of `step`: one case for each instruction. -/
theorem step_cases (h : step code c (th, i) = some c') :
    (∃ m mark next, code (c.pc th) = .lock m mark next ∧ c.owner m = none ∧
      c' = ⟨update c.owner m (some th), update c.pc th next, mark th c.data⟩) ∨
    (∃ m next, code (c.pc th) = .unlock m next ∧
      c' = ⟨update c.owner m none, update c.pc th next, c.data⟩) ∨
    (∃ f d p, code (c.pc th) = .act f ∧ f th i c.owner c.data = some (d, p) ∧
      c' = ⟨c.owner, update c.pc th p, d⟩) := by
  unfold step at h
  cases hc : code (c.pc th) with
  | lock m mark next =>
    cases ho : c.owner m with
    | none =>
      simp only [hc, ho, some.injEq] at h
      exact .inl ⟨m, mark, next, rfl, ho, h.symm⟩
    | some u => simp [hc, ho] at h
  | unlock m next =>
    simp only [hc, some.injEq] at h
    exact .inr (.inl ⟨m, next, rfl, h.symm⟩)
  | act f =>
    cases hf : f th i c.owner c.data with
    | none => simp [hc, hf] at h
    | some dp =>
      rcases dp with ⟨d, p⟩
      simp only [hc, hf, some.injEq] at h
      exact .inr (.inr ⟨f, d, p, rfl, hf, h.symm⟩)

theorem step_pc_of_ne {u : Nat} (h : step code c (th, i) = some c') (hu : u ≠ th) :
    c'.pc u = c.pc u := by
  rcases step_cases h with ⟨m, mark, next, _, _, rfl⟩ | ⟨m, next, _, rfl⟩ | ⟨f, d, p, _, _, rfl⟩ <;>
    exact update_of_ne hu _ _

/-! ## Runs -/

@[simp] theorem run_nil (c : Config M D P) : run code c [] = some c := rfl

theorem run_cons {a : Nat × I} :
    run code c (a :: as) = some c' ↔ ∃ c1, step code c a = some c1 ∧ run code c1 as = some c' := by
  cases h : step code c a with
  | none => simp [run, h]
  | some c1 => simp [run, h]

theorem run_append {bs : List (Nat × I)} :
    run code c (as ++ bs) = some c' ↔ ∃ c1, run code c as = some c1 ∧ run code c1 bs = some c' := by
  induction as generalizing c with
  | nil => simp
  | cons a as ih =>
    constructor
    · intro h
      rcases run_cons.1 h with ⟨c1, hs, hr⟩
      rcases ih.1 hr with ⟨c2, h1, h2⟩
      exact ⟨c2, run_cons.2 ⟨c1, hs, h1⟩, h2⟩
    · rintro ⟨c2, h1, h2⟩
      rcases run_cons.1 h1 with ⟨c1, hs, hr⟩
      exact run_cons.2 ⟨c1, hs, ih.2 ⟨c2, hr, h2⟩⟩

theorem run_pc_of_not_mem {u : Nat} (hu : ∀ a ∈ as, u ≠ a.1) (h : run code c as = some c') :
    c'.pc u = c.pc u := by
  induction as generalizing c with
  | nil =>
    cases h
    rfl
  | cons a as ih =>
    rcases run_cons.1 h with ⟨c1, hs, hr⟩
    calc
      c'.pc u = c1.pc u := ih (fun b hb => hu b (List.mem_cons_of_mem _ hb)) hr
      _ = c.pc u := step_pc_of_ne hs (hu a List.mem_cons_self)

variable {ok : Nat → I → D → P → Prop} {J Q : Config M D P → Prop}

/-- What a run leads to is found out by running it. -/
theorem exists_of_run (Q : Config M D P → Prop)
    [DecidablePred Q] (h : (run code c as).any (fun c' => decide (Q c')) = true) :
    ∃ c', run code c as = some c' ∧ Q c' := by
  cases hr : run code c as with
  | none => simp [hr] at h
  | some c' => exact ⟨c', rfl, by simpa [hr] using h⟩

/-- The invariant rule: what holds initially and is kept by every step that satisfies `ok` holds
after every run whose steps all satisfy `ok`. -/
theorem run_induction (hstep : ∀ {c c' : Config M D P} {th : Nat} {i : I},
      J c → ok th i c.data (c.pc th) → step code c (th, i) = some c' → J c')
    (hc : J c) (hm : Meets code ok c as) (h : run code c as = some c') : J c' := by
  induction as generalizing c with
  | nil =>
    cases h
    exact hc
  | cons a as ih =>
    rcases run_cons.1 h with ⟨c1, hs, hr⟩
    exact ih (hstep hc hm.1 hs) (hm.2 c1 hs) hr

/-- What goes into a queue comes out in the same order or is still there. -/
theorem run_balance {α : Type*} (queue : D → List α) (put taken : Nat → D → P → List α)
    (hstep : ∀ {c c' : Config M D P} {th : Nat} {i : I}, J c → step code c (th, i) = some c' →
      J c' ∧ queue c.data ++ put th c.data (c.pc th) = taken th c.data (c.pc th) ++ queue c'.data)
    (hc : J c) (h : run code c as = some c') :
    queue c.data ++ yields code put c as = yields code taken c as ++ queue c'.data := by
  induction as generalizing c with
  | nil =>
    cases h
    exact List.append_nil _
  | cons a as ih =>
    rcases run_cons.1 h with ⟨c1, hs, hr⟩
    rcases hstep hc hs with ⟨hc1, heq⟩
    simp only [yields, hs, Option.elim_some, List.append_assoc]
    rw [← ih hc1 hr, ← List.append_assoc, heq, List.append_assoc]

theorem always_of_meets (hstep : ∀ {c c' : Config M D P} {th : Nat} {i : I},
      J c → ok th i c.data (c.pc th) → step code c (th, i) = some c' → J c')
    (hc : J c) (hm : Meets code ok c as) : Always code J c as := by
  induction as generalizing c with
  | nil => exact hc
  | cons a as ih => exact ⟨hc, fun c' hs => ih (hstep hc hm.1 hs) (hm.2 c' hs)⟩

theorem meets_of_invariant
    (hstep : ∀ {c c' : Config M D P} {th : Nat} {i : I}, J c → step code c (th, i) = some c' → J c')
    (hok : ∀ {c : Config M D P} {th : Nat} {i : I}, J c → ok th i c.data (c.pc th)) (hc : J c) :
    Meets code ok c as := by
  induction as generalizing c with
  | nil => trivial
  | cons a as ih => exact ⟨hok hc, fun c' hs => ih (hstep hc hs)⟩

/-- Conversely, where a step into `Q` satisfies `ok` at once, a run that stays in `Q` meets
`ok`. -/
theorem meets_of_always
    (hstep : ∀ {c c' : Config M D P} {th : Nat} {i : I}, J c → step code c (th, i) = some c' → J c')
    (hok : ∀ {c c' : Config M D P} {th : Nat} {i : I},
      J c → step code c (th, i) = some c' → Q c' → ok th i c.data (c.pc th))
    (hc : J c) (hr : run code c as = some c') (ha : Always code Q c as) : Meets code ok c as := by
  induction as generalizing c with
  | nil => trivial
  | cons a as ih =>
    rcases run_cons.1 hr with ⟨c1, hs, hr1⟩
    have hQ : Q c1 := by
      have := ha.2 c1 hs
      cases as with
      | nil => exact this
      | cons b bs => exact this.1
    refine ⟨hok hc hs hQ, ?_⟩
    intro c2 hs2
    have : c1 = c2 := some.inj (hs.symm.trans hs2)
    subst this
    exact ih (hstep hc hs) hr1 (ha.2 c1 hs)

theorem Always.mono (h : ∀ c, J c → Q c) (hJ : Always code J c as) : Always code Q c as := by
  induction as generalizing c with
  | nil => exact h c hJ
  | cons a as ih => exact ⟨h c hJ.1, fun c' hs => ih (hJ.2 c' hs)⟩

theorem meets_cons (hs : step code c (th, i) = some c') (hok : ok th i c.data (c.pc th))
    (hm : Meets code ok c' as) : Meets code ok c ((th, i) :: as) := by
  refine ⟨hok, ?_⟩
  intro c1 hs1
  have : c' = c1 := some.inj (hs.symm.trans hs1)
  exact this ▸ hm

/-- Whether a schedule meets a decidable condition is found out by running it. -/
instance decidableMeets [∀ th i d p, Decidable (ok th i d p)] :
    ∀ (as : List (Nat × I)) (c : Config M D P), Decidable (Meets code ok c as)
  | [], _ => isTrue trivial
  | (th, i) :: as, c =>
    match hs : step code c (th, i) with
    | none =>
      decidable_of_iff (ok th i c.data (c.pc th))
        ⟨fun h => ⟨h, fun c' hs' => by simp [hs] at hs'⟩, And.left⟩
    | some c' =>
      haveI : Decidable (Meets code ok c' as) := decidableMeets as c'
      decidable_of_iff (ok th i c.data (c.pc th) ∧ Meets code ok c' as)
        ⟨fun h => meets_cons hs h.1 h.2, fun h => ⟨h.1, h.2 c' hs⟩⟩

theorem meets_of_forall (hok : ∀ th i d p, ok th i d p) (as : List (Nat × I)) (c : Config M D P) :
    Meets code ok c as :=
  meets_of_invariant (J := fun _ => True) (fun _ _ => trivial) (fun _ => hok ..) trivial

end

namespace WaitSet

/-- The waiter that a signal wakes, and whether a wait ends without one. -/
structure Choice where
  target : Nat
  spurious : Bool

def leave (waiters : List Nat) (th : Nat) : List Nat := waiters.filter (· ≠ th)

def wakeOne (waiters : List Nat) (target : Nat) : Option (List Nat) :=
  if waiters = [] then some [] else if target ∈ waiters then some (leave waiters target) else none

/-- Thread `th` returns from its wait, which it may do without having been woken. -/
def returns (waiters : List Nat) (th : Nat) (spurious : Bool) : Option (List Nat) :=
  if th ∈ waiters ∧ ¬spurious then none else some (leave waiters th)

variable {waiters waiters' : List Nat} {th u target : Nat} {spurious : Bool}

theorem mem_leave : u ∈ leave waiters th ↔ u ∈ waiters ∧ u ≠ th := by
  simp [leave]

theorem leave_subset : leave waiters th ⊆ waiters := fun _ hu => (mem_leave.1 hu).1

theorem wakeOne_subset (h : wakeOne waiters target = some waiters') : waiters' ⊆ waiters := by
  rw [wakeOne] at h
  split_ifs at h with hnil
  · cases h
    exact List.nil_subset _
  · cases h
    exact leave_subset

theorem returns_eq (h : returns waiters th spurious = some waiters') :
    waiters' = leave waiters th := by
  rw [returns] at h
  split_ifs at h
  exact (some.inj h).symm

end WaitSet

end SystemsLab.Concurrent
