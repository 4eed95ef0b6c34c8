import SystemsLab.LockStore.Outline

/-!
# What the cycle check of `acquire_key_lock` prevents

The check runs once, before the wait, on edges to the owner at that time.  A waiter that wakes up,
finds another owner and goes back to sleep keeps its old edge.

* `BlockedOn` — the wait-for relation of the locks themselves;
* `OwnerKept` — nobody goes to sleep behind an owner to which it has no edge;
* `Waits` — the edges of the waiters; `Watched` — acyclic, and each to the slot's owner.
-/

namespace SystemsLab.LockStore

open Concurrent KeyStore Relation Function

/-! ## Waiting -/

/-- A thread in `pthread_cond_wait`: the request, and the owner to which its edge points. -/
def asleep : Pc → Option (Request × Nat)
  | .waitUnlock r owner | .waiting r owner => some (r, owner)
  | _ => none

/-- The active transaction `a` is in the condition wait of a slot that the active transaction `b`
owns. -/
def BlockedOn (c : Config Mutex Store Pc) (a b : Nat) : Prop :=
  ∃ th r owner, asleep (c.pc th) = some (r, owner) ∧ th ∈ c.data.waiting r.idx ∧
    r.txn = a ∧ c.data.owner r.idx = b ∧ Active c.data a ∧ Active c.data b

/-- A waiter that goes to sleep has its edge to the present owner of the slot. -/
def OwnerKept : Nat → Call → Store → Pc → Prop
  | _, _, d, .waitCheck r owner =>
    d.owner r.idx ≠ 0 → d.owner r.idx ≠ r.txn → Active d r.txn → d.owner r.idx = owner
  | _, _, _, _ => True

instance decidableOwnerKept (th : Nat) (i : Call) (d : Store) (p : Pc) :
    Decidable (OwnerKept th i d p) := by
  unfold OwnerKept
  split <;> infer_instance

/-! ## Sleeping behind the owner -/

/-- A sleeper's slot still has the owner to which the edge of the sleeper points. -/
def Anchored (th : Nat) (d : Store) (p : Pc) : Prop :=
  ∀ r owner, asleep p = some (r, owner) → th ∈ d.waiting r.idx → d.owner r.idx = owner

theorem setEdge_owner_waiting (d : Store) (a b : Nat) (x : Bool) :
    (d.setEdge a b x).owner = d.owner ∧ (d.setEdge a b x).waiting = d.waiting := by
  unfold Store.setEdge
  split <;> exact ⟨rfl, rfl⟩

variable {th : Nat} {d d' : Store} {p p' next : Pc} {i : Call} {m : Mutex}
  {c : Config Mutex Store Pc}

/-- An act of another thread that leaves `u` in a wait set does not take the slot from its
owner. -/
theorem Acts.waiting_owner {u : Nat} (h : Acts th d p d' p')
    (hu : u ≠ th) {k : Slot} (hk : d.keys k ≠ none) (hw : u ∈ d'.waiting k) :
    u ∈ d.waiting k ∧ (d'.owner k = d.owner k ∨ d.owner k = 0) := by
  cases h with
  | openKey t key value idx =>
    by_cases hidx : d.keys idx = none
    · -- a slot in use is not the one that is opened
      have hne : k ≠ idx := fun e => hk (e ▸ hidx)
      simp only [Store.openKey, hidx, if_true, update_of_ne hne] at hw ⊢
      exact ⟨hw, .inl trivial⟩
    · simp only [Store.openKey, hidx, if_false] at hw ⊢
      exact ⟨hw, .inl trivial⟩
  | take r hfree =>
    refine ⟨hw, ?_⟩
    by_cases hkr : k = r.idx
    · exact .inr (hkr ▸ hfree)
    · exact .inl (update_of_ne hkr _ _)
  | addEdge r owner | selfRemoveEdge r owner | removeEdge r owner =>
    rcases setEdge_owner_waiting d r.txn owner _ with ⟨howner, hwaiting⟩
    exact ⟨by rwa [hwaiting] at hw, .inl (by rw [howner])⟩
  | sleep r owner T hT hsleep =>
    refine ⟨?_, .inl rfl⟩
    rcases eq_or_ne k r.idx with rfl | hkr
    · have hmem : u = th ∨ u ∈ d.waiting r.idx := by simpa [Store.enterWait] using hw
      exact hmem.resolve_left hu
    · simpa [Store.enterWait, hkr] using hw
  | spurious r owner =>
    refine ⟨?_, .inl rfl⟩
    rcases eq_or_ne k r.idx with rfl | hkr
    · have hmem : u ∈ d.waiting r.idx ∧ u ≠ th := by simpa [Store.leaveWait] using hw
      exact hmem.1
    · simpa [Store.leaveWait, hkr] using hw
  | releaseOwner v x caller =>
    by_cases howner : d.owner x = v
    · -- the broadcast empties the wait set of the released slot
      have hne : k ≠ x := by
        rintro rfl
        simp [Store.release, howner] at hw
      simp only [Store.release, howner, if_true, update_of_ne hne] at hw ⊢
      exact ⟨hw, .inl trivial⟩
    · simp only [Store.release, howner, if_false] at hw ⊢
      exact ⟨hw, .inl trivial⟩
  | _ => exact ⟨hw, .inl rfl⟩

theorem Acts.anchored_frame {u : Nat} {q : Pc} (h : Acts th d p d' p')
    (hinv : Inv d) (hu : u ≠ th) (hat : At u d q) (hq : Anchored u d q) : Anchored u d' q := by
  intro r owner hr hw
  have hat' : Writing u d r ∧ EdgeOk d r owner := by
    cases q with
    | waitUnlock r' owner' | waiting r' owner' =>
      cases hr
      exact hat
    | _ => cases hr
  rcases h.waiting_owner hu hat'.1.used hw with ⟨hw', hsame | hzero⟩
  · exact hsame.trans (hq r owner hr hw')
  · -- the owner of the edge is a transaction, so the slot is not free
    have howner : owner = 0 := (hq r owner hr hw').symm.trans hzero
    exact absurd (howner ▸ hinv.not_known_zero) hat'.2.known

theorem Acts.anchored (h : Acts th d p d' p') (hok : OwnerKept th i d p) : Anchored th d' p' := by
  intro r owner hr _
  cases h with
  | sleep r' owner' T hT hsleep =>
    cases hr
    exact hok hsleep.1 hsleep.2.1 ⟨T, hT, hsleep.2.2⟩
  | releaseEnd v i caller => cases caller <;> cases hr
  | _ => cases hr

theorem Locks.asleep_eq (h : Locks p m next) : asleep next = none := by
  cases h <;> rfl

theorem Unlocks.asleep_eq (h : Unlocks p m next) {x : Request × Nat}
    (hx : asleep next = some x) : asleep p = some x := by
  cases h with
  | wait r owner => exact hx
  | txn v caller => cases caller <;> cases hx
  | _ => cases hx

/-! ## The edges of the waiters -/

/-- The wait edge of a thread between a check without a cycle and the end of its wait. -/
def waitEdge : Pc → Option (Nat × Nat)
  | .waitCheck r owner | .waitUnlock r owner | .waiting r owner | .relock r owner =>
    some (r.txn, owner)
  | _ => none

/-- Somebody has passed the check with the edge from `a` to `b`, and the edge is still there. -/
def Waits (c : Config Mutex Store Pc) (a b : Nat) : Prop :=
  ∃ th, waitEdge (c.pc th) = some (a, b) ∧ c.data.waitFor a b = true

theorem Locks.waitEdge_eq (h : Locks p m next) : waitEdge next = waitEdge p := by
  cases h <;> rfl

theorem Unlocks.waitEdge_eq (h : Unlocks p m next) : waitEdge next = waitEdge p := by
  cases h with
  | txn v caller => cases caller <;> rfl
  | _ => rfl

theorem Inv.startTs_ne_none (hinv : Inv d) (a b : Nat) (hab : d.waitFor a b = true) :
    d.startTs a ≠ none := by
  simpa [Store.startTs] using (hinv.edge_known a b hab).1

/-- A thread begins to wait only if the check has found no cycle; the victim of a cycle is a
transaction. -/
theorem Acts.waitEdge_eq (h : Acts th d p d' p') (hinv : Inv d)
    {e : Nat × Nat} (he : waitEdge p' = some e) : waitEdge p = some e ∨ d'.detect = none := by
  cases h with
  | noCycle r owner hnone =>
    refine .inr (Option.eq_none_iff_forall_ne_some.2 fun v hv => ?_)
    exact detect_known hinv.startTs_ne_none hv (by simp [Store.startTs, hnone v hv])
  | sleep r owner T hT hsleep => exact .inl he
  | woken r owner | spurious r owner => exact .inl he
  | releaseEnd v i caller => cases caller <;> cases he
  | _ => cases he

/-- Only `add_wait_edge` adds an edge. -/
theorem Acts.waitFor_cases (h : Acts th d p d' p') {a b : Nat} (hab : d'.waitFor a b = true) :
    d.waitFor a b = true ∨ ∃ r owner, p = .addEdge r owner ∧ r.txn = a := by
  have removed : ∀ {r : Request} {owner : Nat},
      (d.setEdge r.txn owner false).waitFor a b = true → d.waitFor a b = true := by
    intro r owner hedge
    unfold Store.setEdge at hedge
    split at hedge
    · exact hedge
    · rcases eq_or_ne a r.txn with rfl | ha
      · by_cases hb : b = owner
        · simp [hb] at hedge
        · simpa [hb] using hedge
      · simpa [ha] using hedge
  cases h with
  | openKey t key value idx =>
    refine .inl ?_
    unfold Store.openKey at hab
    split at hab <;> exact hab
  | addEdge r owner =>
    by_cases ha : r.txn = a
    · exact .inr ⟨r, owner, rfl, ha⟩
    · refine .inl ?_
      unfold Store.setEdge at hab
      split at hab
      · exact hab
      · simpa [Ne.symm ha] using hab
  | selfRemoveEdge r owner | removeEdge r owner => exact .inl (removed hab)
  | clearEdges v caller =>
    refine .inl ?_
    simp only [Store.clearEdges] at hab
    split at hab
    · cases hab
    · exact hab
  | releaseOwner v k caller =>
    refine .inl ?_
    unfold Store.release at hab
    split at hab <;> exact hab
  | _ => exact .inl hab

theorem At.driver_of_waitEdge {a b : Nat} (hp : At th d p) (h : waitEdge p = some (a, b)) :
    d.driver a = some th := by
  cases p with
  | waitCheck r owner | waitUnlock r owner | waiting r owner | relock r owner =>
    cases h
    exact hp.1.driver
  | _ => cases h

theorem At.edge_of_asleep {r : Request} {owner : Nat} (hp : At th d p)
    (h : asleep p = some (r, owner)) :
    waitEdge p = some (r.txn, owner) ∧ EdgeOk d r owner := by
  cases p with
  | waitUnlock r' owner' | waiting r' owner' =>
    cases h
    exact ⟨rfl, hp.2⟩
  | _ => cases h

theorem Inv.acyclic_of_detect (hinv : Inv d) (h : d.detect = none) (x : Nat) :
    ¬ TransGen (fun a b => d.waitFor a b = true) x x := by
  refine detect_none hinv.startTs_ne_none (fun a b hab => ?_) h x
  rcases hinv.edge_known a b hab with ⟨ha, hb⟩
  exact ⟨hinv.id_range a ha, (hinv.id_range b hb).2⟩

/-- An act adds nothing to the edges of the waiters, except right after a check. -/
theorem Acts.waits (hO : outline.Holds c) (h : Acts th c.data (c.pc th) d p) :
    (∀ a b, Waits ⟨c.owner, update c.pc th p, d⟩ a b → Waits c a b) ∨ d.detect = none := by
  by_cases hdetect : d.detect = none
  · exact .inr hdetect
  refine .inl ?_
  rintro a b ⟨u, hu, hab⟩
  -- the waiter has had this edge before the act
  have hedge : waitEdge (c.pc u) = some (a, b) := by
    rcases eq_or_ne u th with rfl | huth
    · have hp : waitEdge p = some (a, b) := by simpa using hu
      exact (h.waitEdge_eq hO.inv hp).resolve_right hdetect
    · simpa [huth] using hu
  refine ⟨u, hedge, ?_⟩
  rcases h.waitFor_cases hab with hab' | ⟨r, owner, hpc, rfl⟩
  · exact hab'
  · -- whoever adds an edge from `a` drives `a`, and does not wait yet
    have hdriver := (at_of_holds hO u).driver_of_waitEdge hedge
    have hadd := at_of_holds hO th
    rw [hpc] at hadd
    have huth : th = u := Option.some.inj (hadd.1.driver.symm.trans hdriver)
    rw [← huth, hpc] at hedge
    cases hedge

/-! ## Runs -/

/-- The outline, and no waiter behind a wrong owner or in a circle. -/
structure Watched (c : Config Mutex Store Pc) : Prop where
  outline : outline.Holds c
  anchored : ∀ th, Anchored th c.data (c.pc th)
  acyclic : ∀ x, ¬ TransGen (Waits c) x x

theorem watched_init : Watched init where
  outline := outline_init
  anchored th r owner hr := by
    cases hr
  acyclic x hx := by
    rcases TransGen.head'_iff.1 hx with ⟨y, ⟨th, hth, -⟩, -⟩
    cases hth

theorem Watched.act (hc : Watched c) (hok : OwnerKept th i c.data (c.pc th))
    (h : Acts th c.data (c.pc th) d p)
    (hO : LockStore.outline.Holds ⟨c.owner, update c.pc th p, d⟩) :
    Watched ⟨c.owner, update c.pc th p, d⟩ where
  outline := hO
  anchored := (forall_update_iff c.pc fun u q => Anchored u d q).2 ⟨h.anchored hok,
    fun u hu => h.anchored_frame hc.outline.inv hu (at_of_holds hc.outline u) (hc.anchored u)⟩
  acyclic x hx := by
    rcases h.waits hc.outline with hle | hdetect
    · exact hc.acyclic x (hx.lift id hle)
    · -- the check has looked at the whole matrix, so at all edges of the waiters
      exact Inv.acyclic_of_detect hO.inv hdetect x (hx.lift id fun a b hab => by
        rcases hab with ⟨u, -, hab⟩
        exact hab)

theorem Watched.move (hc : Watched c) {owner : Mutex → Option Nat}
    (hedge : waitEdge p = waitEdge (c.pc th))
    (hasleep : ∀ x, asleep p = some x → asleep (c.pc th) = some x)
    (hO : LockStore.outline.Holds ⟨owner, update c.pc th p, c.data⟩) :
    Watched ⟨owner, update c.pc th p, c.data⟩ where
  outline := hO
  anchored := (forall_update_iff c.pc fun u q => Anchored u c.data q).2
    ⟨fun r o hr => hc.anchored th r o (hasleep _ hr), fun u _ => hc.anchored u⟩
  acyclic x hx := by
    refine hc.acyclic x (hx.lift id ?_)
    rintro a b ⟨u, hu, hab⟩
    refine ⟨u, ?_, hab⟩
    by_cases huth : u = th
    · simpa [huth, hedge] using hu
    · simpa [huth] using hu

theorem watched_step {c' : Config Mutex Store Pc} (hc : Watched c)
    (hok : OwnerKept th i c.data (c.pc th)) (hs : step code c (th, i) = some c') : Watched c' := by
  have hO := Outline.step_holds hc.outline trivial hs
  rcases step_cases hs with ⟨m, mark, next, hcode, -, rfl⟩ | ⟨m, next, hcode, rfl⟩ |
    ⟨f, d, p, hcode, hf, rfl⟩
  · rcases locks_of_code hcode with ⟨rfl, hl⟩
    refine hc.move hl.waitEdge_eq ?_ hO
    intro x hx
    rw [hl.asleep_eq] at hx
    cases hx
  · have hl := unlocks_of_code hcode
    exact hc.move hl.waitEdge_eq (fun x hx => hl.asleep_eq hx) hO
  · exact hc.act hok (acts_of_code hcode hf) hO

/-- In a run in which no waiter goes to sleep behind an owner to which it has no edge, active
transactions never wait for each other's slots in a circle. -/
theorem deadlocks_detected (as : List (Nat × Call)) (c : Config Mutex Store Pc)
    (h : run code init as = some c) (hm : Meets code OwnerKept init as) (t : Nat) :
    ¬ TransGen (BlockedOn c) t t := by
  have hc : Watched c := run_induction (J := Watched) watched_step watched_init hm h
  intro ht
  refine hc.acyclic t (ht.lift id ?_)
  rintro a b ⟨th, r, owner, hr, hw, rfl, howner, ha, hb⟩
  -- a sleeper has its edge to the present owner of the slot, and the edge is in the matrix
  rcases (at_of_holds hc.outline th).edge_of_asleep hr with ⟨hedge, hok⟩
  have hb' : owner = b := (hc.anchored th r owner hr hw).symm.trans howner
  subst hb'
  exact ⟨th, hedge, hok.edge ha hb⟩

/-- Transaction `2` waits for the slot of `1`, wakes up for no reason and sleeps again. -/
def spuriousWait : List (Nat × Call) :=
  List.flatten
    [[(0, .createTxn), (1, .createTxn)], List.replicate 8 (0, .txnWrite 1 bracketKey CString.empty),
      List.replicate 9 (1, .txnWrite 2 bracketKey CString.empty),
      List.replicate 4 (1, .spuriousWakeup)]

theorem deadlocks_detected_spuriousWait :
    ∃ c, run code init spuriousWait = some c ∧ BlockedOn c 2 1 ∧ ∀ t,
      ¬ TransGen (BlockedOn c) t t := by
  obtain ⟨c, hc, hasleep, hwaiting, howner, h2, h1⟩ : ∃ c, run code init spuriousWait = some c ∧
      asleep (c.pc 1) = some (⟨2, 0, CString.empty⟩, 1) ∧ 1 ∈ c.data.waiting 0 ∧
      c.data.owner 0 = 1 ∧ Active c.data 2 ∧ Active c.data 1 :=
    exists_of_run _ (by decide +kernel)
  exact ⟨c, hc, ⟨1, _, 1, hasleep, hwaiting, rfl, howner, h2, h1⟩,
    deadlocks_detected spuriousWait c hc (by decide +kernel)⟩

/-- Transaction `2` owns the second slot and waits for the first one, which `1` owns.  The commit of
`1` releases the first slot, `3` takes it before `2` is back, and `2` sleeps again with its edge to
`1`.  Then `3` asks for the second slot. -/
def staleEdge : List (Nat × Call) :=
  List.flatten
    [[(0, .createTxn), (1, .createTxn), (2, .createTxn)],
      List.replicate 8 (0, .txnWrite 1 bracketKey CString.empty),
      List.replicate 8 (1, .txnWrite 2 backslashKey CString.empty),
      List.replicate 9 (1, .txnWrite 2 bracketKey CString.empty),
      List.replicate 9 (0, .txnCommit 1),
      List.replicate 8 (2, .txnWrite 3 bracketKey CString.empty),
      List.replicate 4 (1, .txnWrite 2 bracketKey CString.empty),
      List.replicate 9 (2, .txnWrite 3 backslashKey CString.empty)]

/-- Two active transactions sleep, each in the wait set of a slot that the other owns. -/
theorem stale_edge_deadlock :
    ∃ c, run code init staleEdge = some c ∧ BlockedOn c 2 3 ∧ BlockedOn c 3 2 ∧
      TransGen (BlockedOn c) 2 2 := by
  obtain ⟨c, hc, ⟨ha, hwa, hoa⟩, ⟨hb, hwb, hob⟩, h2, h3⟩ : ∃ c, run code init staleEdge = some c ∧
      (asleep (c.pc 1) = some (⟨2, 0, CString.empty⟩, 1) ∧ 1 ∈ c.data.waiting 0 ∧
        c.data.owner 0 = 3) ∧
      (asleep (c.pc 2) = some (⟨3, 1, CString.empty⟩, 2) ∧ 2 ∈ c.data.waiting 1 ∧
        c.data.owner 1 = 2) ∧
      Active c.data 2 ∧ Active c.data 3 :=
    exists_of_run _ (by decide +kernel)
  have h23 : BlockedOn c 2 3 := ⟨1, _, 1, ha, hwa, rfl, hoa, h2, h3⟩
  have h32 : BlockedOn c 3 2 := ⟨2, _, 2, hb, hwb, rfl, hob, h3, h2⟩
  exact ⟨c, hc, h23, h32, TransGen.head h23 (TransGen.single h32)⟩

end SystemsLab.LockStore
