import SystemsLab.Concurrent.Program

/-!
# Resource invariants for mutexes

A proof outline gives every program point the mutexes its thread holds there and an assertion
about the shared data, and gives every mutex a *resource invariant*: a fact about the data that is
true whenever nobody holds the mutex.  Locking a mutex hands its resource invariant to the thread,
unlocking hands it back, and an act of one thread must leave alone

* the resource invariants of the mutexes that are free, and
* the assertions of all other threads (whose mutexes it cannot hold).

`Outline.run_holds` then gives all of it after every run.  `Outline.exists_unblocked` is the
lock-order argument: when every thread asks for a mutex above the ones it holds, not everybody is
blocked.

A thread that holds at most one mutex at a time is in one critical section or in none (`Sections`).
Such a program needs no resource invariants, and a thread has to leave alone only what threads
outside its section rely on.
-/

namespace SystemsLab.Concurrent

open Function

variable {M D P I : Type*}

/-! ## Outlines -/

/-- The obligations of a proof outline for `code` under the side condition `ok`. -/
structure Outline (code : P → Instr M D P I) (ok : Nat → I → D → P → Prop) where
  /-- The mutexes that a thread holds at a program point. -/
  held : P → List M
  /-- True of the shared data at all times. -/
  inv : D → Prop
  /-- True of the shared data while the mutex is free. -/
  res : M → D → Prop
  /-- True of the shared data while the thread stands at the program point. -/
  loc : Nat → D → P → Prop
  lock_loc : ∀ {th d p m mark next}, code p = .lock m mark next → inv d → loc th d p →
    m ∉ held p → res m d → inv (mark th d) ∧ loc th (mark th d) next
  lock_held : ∀ {th d p m mark next}, code p = .lock m mark next → loc th d p →
    ∀ m', m' ∈ held next ↔ m' = m ∨ m' ∈ held p
  lock_res : ∀ {th d p m mark next m'}, code p = .lock m mark next → inv d → loc th d p →
    res m d → m' ≠ m → m' ∉ held p → res m' d → res m' (mark th d)
  lock_frame : ∀ {th d p m mark next u q}, code p = .lock m mark next → inv d → loc th d p →
    res m d → u ≠ th → m ∉ held q → (∀ m' ∈ held p, m' ∉ held q) → loc u d q →
    loc u (mark th d) q
  unlock_loc : ∀ {th d p m next}, code p = .unlock m next → inv d → loc th d p →
    res m d ∧ loc th d next
  unlock_held : ∀ {th d p m next}, code p = .unlock m next → loc th d p →
    m ∈ held p ∧ ∀ m', m' ∈ held next ↔ m' ≠ m ∧ m' ∈ held p
  act_loc : ∀ {th i own d p f d' p'}, code p = .act f → ok th i d p →
    f th i own d = some (d', p') → inv d → (∀ m, own m = none → res m d) → loc th d p →
    inv d' ∧ loc th d' p'
  act_held : ∀ {th i own d p f d' p'}, code p = .act f → f th i own d = some (d', p') →
    loc th d p → ∀ m, m ∈ held p' ↔ m ∈ held p
  act_res : ∀ {th i own d p f d' p' m}, code p = .act f → ok th i d p →
    f th i own d = some (d', p') → inv d → loc th d p → m ∉ held p → res m d → res m d'
  act_frame : ∀ {th i own d p f d' p' u q}, code p = .act f → ok th i d p →
    f th i own d = some (d', p') → inv d → loc th d p → u ≠ th →
    (∀ m ∈ held p, m ∉ held q) → (∀ m ∈ held q, own m = some u) → loc u d q → loc u d' q

namespace Outline

variable {code : P → Instr M D P I} {ok : Nat → I → D → P → Prop} (O : Outline code ok)

/-- The outline describes the configuration. -/
structure Holds (c : Config M D P) : Prop where
  owns : ∀ m th, c.owner m = some th ↔ m ∈ O.held (c.pc th)
  inv : O.inv c.data
  res : ∀ m, c.owner m = none → O.res m c.data
  loc : ∀ th, O.loc th c.data (c.pc th)

variable {O} {c : Config M D P} {m : M} {th : Nat} {u : Nat} {d : D} {p : P} {i : I}
  {c' : Config M D P}

theorem Holds.exclusive (h : O.Holds c) (hth : m ∈ O.held (c.pc th)) (hu : m ∈ O.held (c.pc u)) :
    th = u := by
  have h1 : c.owner m = some th := (h.owns m th).2 hth
  have h2 : c.owner m = some u := (h.owns m u).2 hu
  exact Option.some.inj (h1.symm.trans h2)

theorem Holds.disjoint (h : O.Holds c) (hu : u ≠ th) :
    ∀ m ∈ O.held (c.pc th), m ∉ O.held (c.pc u) :=
  fun _ hm hmu => hu (h.exclusive hmu hm)

theorem Holds.not_held_of_free (h : O.Holds c) (hm : c.owner m = none) (th : Nat) :
    m ∉ O.held (c.pc th) := by
  intro hth
  have := (h.owns m th).2 hth
  simp [hm] at this

theorem Holds.start (hheld : O.held p = []) (hinv : O.inv d) (hres : ∀ m, O.res m d)
    (hloc : ∀ th, O.loc th d p) :
    O.Holds (Config.start d p) where
  owns m th := by simp [Config.start, hheld]
  inv := hinv
  res := fun m _ => hres m
  loc := hloc

/-! ## One step -/

private theorem Holds.act (h : O.Holds c) {f : Nat → I → (M → Option Nat) → D → Option (D × P)}
    (hc : code (c.pc th) = .act f) (hok : ok th i c.data (c.pc th))
    (hf : f th i c.owner c.data = some (d, p)) :
    O.Holds ⟨c.owner, update c.pc th p, d⟩ where
  owns m := by
    refine (forall_update_iff c.pc fun u q => c.owner m = some u ↔ m ∈ O.held q).2 ⟨?_,
      fun u _ => h.owns m u⟩
    rw [O.act_held hc hf (h.loc th)]
    exact h.owns m th
  inv := (O.act_loc hc hok hf h.inv h.res (h.loc th)).1
  res m hm := O.act_res hc hok hf h.inv (h.loc th) (h.not_held_of_free hm th) (h.res m hm)
  loc := by
    refine (forall_update_iff c.pc fun u q => O.loc u d q).2 ⟨?_, fun u hu => ?_⟩
    · exact (O.act_loc hc hok hf h.inv h.res (h.loc th)).2
    · exact O.act_frame hc hok hf h.inv (h.loc th) hu (h.disjoint hu)
        (fun m => (h.owns m u).2) (h.loc u)

variable [DecidableEq M]

private theorem Holds.lock (h : O.Holds c) {mark : Nat → D → D} {next : P}
    (hc : code (c.pc th) = .lock m mark next) (ho : c.owner m = none) :
    O.Holds ⟨update c.owner m (some th), update c.pc th next, mark th c.data⟩ where
  owns := by
    have hheld := O.lock_held hc (h.loc th)
    intro m' u
    grind [h.owns m' u]
  inv := (O.lock_loc hc h.inv (h.loc th) (h.not_held_of_free ho th) (h.res m ho)).1
  res m' hm' := by
    rcases eq_or_ne m' m with rfl | hm
    · simp at hm'
    · have hfree : c.owner m' = none := by simpa [hm] using hm'
      exact O.lock_res hc h.inv (h.loc th) (h.res m ho) hm (h.not_held_of_free hfree th)
        (h.res m' hfree)
  loc := by
    refine (forall_update_iff c.pc fun u q => O.loc u (mark th c.data) q).2 ⟨?_, fun u hu => ?_⟩
    · exact (O.lock_loc hc h.inv (h.loc th) (h.not_held_of_free ho th) (h.res m ho)).2
    · exact O.lock_frame hc h.inv (h.loc th) (h.res m ho) hu (h.not_held_of_free ho u)
        (h.disjoint hu) (h.loc u)

private theorem Holds.unlock (h : O.Holds c) {next : P} (hc : code (c.pc th) = .unlock m next) :
    O.Holds ⟨update c.owner m none, update c.pc th next, c.data⟩ where
  owns := by
    rcases O.unlock_held hc (h.loc th) with ⟨hmem, hheld⟩
    intro m' u
    grind [h.owns m' u, h.owns m th]
  inv := h.inv
  res m' hm' := by
    rcases eq_or_ne m' m with rfl | hm
    · exact (O.unlock_loc hc h.inv (h.loc th)).1
    · exact h.res m' (by simpa [hm] using hm')
  loc := (forall_update_iff c.pc fun u q => O.loc u c.data q).2
    ⟨(O.unlock_loc hc h.inv (h.loc th)).2, fun u _ => h.loc u⟩

theorem step_holds (h : O.Holds c)
    (hok : ok th i c.data (c.pc th)) (hs : step code c (th, i) = some c') : O.Holds c' := by
  rcases step_cases hs with ⟨m, mark, next, hc, ho, rfl⟩ | ⟨m, next, hc, rfl⟩ |
    ⟨f, d, p, hc, hf, rfl⟩
  · exact h.lock hc ho
  · exact h.unlock hc
  · exact h.act hc hok hf

/-- A run whose steps all satisfy the side condition keeps the outline. -/
theorem run_holds {as : List (Nat × I)} (h : O.Holds c)
    (hm : Meets code ok c as) (hr : run code c as = some c') : O.Holds c' :=
  run_induction (J := O.Holds) step_holds h hm hr

end Outline

/-! ## Lock order -/

/-- Thread `th` stands at a `lock` of a mutex that thread `u` owns. -/
def BlockedBy (code : P → Instr M D P I) (c : Config M D P) (th u : Nat) : Prop :=
  ∃ m mark next, code (c.pc th) = .lock m mark next ∧ c.owner m = some u

namespace Outline

variable {code : P → Instr M D P I} {ok : Nat → I → D → P → Prop} {O : Outline code ok}

/-- Where every thread asks for a mutex of larger rank than those it holds, either `th` is not
blocked or some thread that holds a mutex is not. -/
theorem Holds.exists_unblocked {c : Config M D P} (h : O.Holds c) (rank : M → Nat) (bound : Nat)
    (hbound : ∀ m, rank m ≤ bound) (horder : ∀ th m mark next, code (c.pc th) = .lock m mark next →
      ∀ m' ∈ O.held (c.pc th), rank m' < rank m) (th : Nat) :
    (∀ u, ¬ BlockedBy code c th u) ∨ ∃ v, O.held (c.pc v) ≠ [] ∧ ∀ u, ¬ BlockedBy code c v u := by
  -- Follow the chain of owners: the rank of the mutex asked for grows at every link.
  have chain : ∀ (n v : Nat) (m : M) (mark : Nat → D → D) (next : P),
      code (c.pc v) = .lock m mark next → bound - rank m = n → (∀ u, ¬ BlockedBy code c v u) ∨
        ∃ v', O.held (c.pc v') ≠ [] ∧ ∀ u, ¬ BlockedBy code c v' u := by
    intro n
    induction n using Nat.strongRecOn with
    | ind n ih =>
      intro v m mark next hv hn
      cases ho : c.owner m with
      | none =>
        refine .inl ?_
        rintro u ⟨m', mark', next', hv', ho'⟩
        rw [hv] at hv'
        cases hv'
        simp [ho] at ho'
      | some u =>
        have hmu : m ∈ O.held (c.pc u) := (h.owns m u).1 ho
        have hne : O.held (c.pc u) ≠ [] := List.ne_nil_of_mem hmu
        by_cases hb : ∃ w, BlockedBy code c u w
        · rcases hb with ⟨w, m', mark', next', hu', ho'⟩
          have hlt : rank m < rank m' := horder u m' mark' next' hu' m hmu
          have hle := hbound m'
          rcases ih (bound - rank m') (by omega) u m' mark' next' hu' rfl with hfree | hex
          · exact .inr ⟨u, hne, hfree⟩
          · exact .inr hex
        · exact .inr ⟨u, hne, fun w hw => hb ⟨w, hw⟩⟩
  by_cases hb : ∃ u, BlockedBy code c th u
  · rcases hb with ⟨u, m, mark, next, hth, _⟩
    exact chain _ th m mark next hth rfl
  · exact .inl fun u hu => hb ⟨u, hu⟩

end Outline

/-! ## Critical sections that are not nested -/

variable {M D P I : Type*}

/-- The obligations for a program with critical sections that are not nested. -/
structure Sections (code : P → Instr M D P I) (ok : Nat → I → D → P → Prop) where
  /-- The mutex whose section a program point is in. -/
  within : P → Option M
  /-- True of the shared data at all times. -/
  inv : D → Prop
  /-- True of the shared data while the thread stands at the program point. -/
  loc : Nat → D → P → Prop
  lock_within : ∀ {p m mark next}, code p = .lock m mark next →
    within p = none ∧ within next = some m
  unlock_within : ∀ {p m next}, code p = .unlock m next → within p = some m ∧ within next = none
  act_within : ∀ {th i own d p f d' p'}, code p = .act f → f th i own d = some (d', p') →
    within p' = within p
  lock_loc : ∀ {th d p m mark next}, code p = .lock m mark next → inv d → loc th d p →
    inv (mark th d) ∧ loc th (mark th d) next
  lock_frame : ∀ {th d p m mark next u q}, code p = .lock m mark next → inv d →
    loc th d p → u ≠ th →
    within q ≠ some m → loc u d q → loc u (mark th d) q
  unlock_loc : ∀ {th d p m next}, code p = .unlock m next → inv d → loc th d p → loc th d next
  act_loc : ∀ {th i own d p f d' p'}, code p = .act f → ok th i d p →
    f th i own d = some (d', p') → inv d → loc th d p → inv d' ∧ loc th d' p'
  act_frame : ∀ {th i own d p f d' p' u q}, code p = .act f → ok th i d p →
    f th i own d = some (d', p') → inv d → loc th d p → u ≠ th →
    (∀ m, within p = some m → within q ≠ some m) → loc u d q → loc u d' q

namespace Sections

variable {inside : P → Bool} {p : P} {m : Unit}

/-- The sections of a program with one mutex. -/
def only (inside : P → Bool) (p : P) : Option Unit := if inside p then some () else none

theorem only_eq_some : only inside p = some m ↔ inside p = true := by
  simp [only]

theorem only_eq_none : only inside p = none ↔ inside p = false := by
  simp [only]

theorem outside_of_only {q : P} (h : ∀ m, only inside p = some m → only inside q ≠ some m)
    (hp : inside p = true) : inside q = false := by
  rw [← Bool.not_eq_true]
  exact fun hq => h () (only_eq_some.2 hp) (only_eq_some.2 hq)

variable {code : P → Instr M D P I} {ok : Nat → I → D → P → Prop} (S : Sections code ok)

/-- The proof outline without resource invariants. -/
def outline : Outline code ok where
  held p := (S.within p).toList
  inv := S.inv
  res _ _ := True
  loc := S.loc
  lock_loc hcode hinv hloc _ _ := S.lock_loc hcode hinv hloc
  lock_held hcode _ m' := by
    rcases S.lock_within hcode with ⟨hp, hnext⟩
    rw [hp, hnext]
    simp
  lock_res _ _ _ _ _ _ _ := trivial
  lock_frame hcode hinv hloc _ hu hq _ hlocu :=
    S.lock_frame hcode hinv hloc hu (fun heq => hq (Option.mem_toList.2 heq)) hlocu
  unlock_loc hcode hinv hloc := ⟨trivial, S.unlock_loc hcode hinv hloc⟩
  unlock_held hcode _ := by
    rcases S.unlock_within hcode with ⟨hp, hnext⟩
    rw [hp, hnext]
    simp only [Option.toList_some, Option.toList_none, List.mem_singleton,
      List.not_mem_nil, true_and]
    intro m'
    exact ⟨False.elim, fun h => h.1 h.2⟩
  act_loc hcode hok hf hinv _ hloc := S.act_loc hcode hok hf hinv hloc
  act_held hcode hf _ m := by rw [S.act_within hcode hf]
  act_res _ _ _ _ _ _ _ := trivial
  act_frame hcode hok hf hinv hloc hu hdisjoint _ hlocu := by
    refine S.act_frame hcode hok hf hinv hloc hu (fun m hm hq => ?_) hlocu
    exact hdisjoint m (Option.mem_toList.2 hm) (Option.mem_toList.2 hq)

variable {S} {c c' : Config M D P}

theorem start_holds {d : D} (hwithin : S.within p = none) (hinv : S.inv d)
    (hloc : ∀ th, S.loc th d p) : S.outline.Holds (Config.start d p) := by
  refine Outline.Holds.start ?_ hinv (fun _ => trivial) hloc
  simp [outline, hwithin]

end Sections

end SystemsLab.Concurrent
