import SystemsLab.LockStore.Outline

/-!
# The abort of a victim inside `acquire_key_lock`

A requester that finds a cycle runs `abort_txn` on the victim while it holds the mutex of the slot
it has asked for, and `release_all_locks` locks the mutex of every slot of the victim.

* `KeyHeld` — what `release_all_locks` goes by; only `acquire_key_lock` sets it (`Acts.keyHeld`);
* `SparesKey` — the victim does not hold the slot that the requester has asked for.
-/

namespace SystemsLab.LockStore

open Concurrent KeyStore PartialMap List Function

/-! ## Held slots -/

def KeyHeld (d : Store) (t : Nat) (k : Slot) : Prop :=
  ∃ T, d.txns t = some T ∧ T.heldKeys k = true

variable {d d' : Store} {t th : Nat} {k : Slot} {p p' : Pc}

theorem KeyHeld.of_setTxn {u : Nat} {T T' : Transaction} (h : KeyHeld (d.setTxn t T') u k)
    (hT : d.txns t = some T)
    (hkeys : T'.heldKeys k = true → T.heldKeys k = true) : KeyHeld d u k := by
  rcases h with ⟨U, hU, hk⟩
  rcases update_cases hU with ⟨rfl, rfl⟩ | ⟨-, hU'⟩
  · exact ⟨T, hT, hkeys hk⟩
  · exact ⟨U, hU', hk⟩

theorem SameBook.keyHeld (h : SameBook d d') (hk : KeyHeld d' t k) : KeyHeld d t k := by
  simpa [KeyHeld, h.txns] using hk

/-- A slot that is held after an act was held before, or the act is the one of
`acquire_key_lock`. -/
theorem Acts.keyHeld (h : Acts th d p d' p') (hk : KeyHeld d' t k) :
    KeyHeld d t k ∨ ∃ r, p = .setHeld r ∧ r.txn = t ∧ r.idx = k := by
  cases h with
  | create =>
    -- a new transaction holds nothing
    rcases hk with ⟨T, hT, hheld⟩
    rcases update_cases hT with ⟨-, rfl⟩ | ⟨-, hT'⟩
    · cases hheld
    · exact .inl ⟨T, hT', hheld⟩
  | setHeld r T hT =>
    by_cases hr : r.txn = t ∧ r.idx = k
    · exact .inr ⟨r, rfl, hr⟩
    · rcases hk with ⟨U, hU, hheld⟩
      rcases update_cases hU with ⟨rfl, rfl⟩ | ⟨-, hU'⟩
      · have hne : k ≠ r.idx := fun e => hr ⟨rfl, e.symm⟩
        exact .inl ⟨T, hT, by simpa [hne] using hheld⟩
      · exact .inl ⟨U, hU', hheld⟩
  | openKey u key value idx => exact .inl ((sameBook_openKey d key idx).keyHeld hk)
  | addEdge r owner | selfRemoveEdge r owner | removeEdge r owner =>
    exact .inl ((sameBook_setEdge d _ _ _).1.keyHeld hk)
  | releaseOwner v x caller => exact .inl ((sameBook_release d x v).1.keyHeld hk)
  | insert r T hT | abort v caller T hT hactive | freeWrites v caller T hT | copied t T hT
  | setCommitted t T hT =>
    exact .inl (KeyHeld.of_setTxn hk hT id)
  | releaseClear v x caller T hT =>
    refine .inl (KeyHeld.of_setTxn hk hT ?_)
    -- clearing one entry sets none
    intro hheld
    by_cases hkx : k = x
    · simp [hkx] at hheld
    · simpa [hkx] using hheld
  | _ => exact .inl hk

/-! ## The condition -/

instance decidableKeyHeld (d : Store) (t : Nat) (k : Slot) : Decidable (KeyHeld d t k) :=
  match hT : d.txns t with
  | none => isFalse fun ⟨_, hU, _⟩ => by simp [hT] at hU
  | some T =>
    decidable_of_iff (T.heldKeys k = true)
      ⟨fun h => ⟨T, hT, h⟩, fun ⟨_, hU, h⟩ => Option.some.inj (hU.symm.trans hT) ▸ h⟩

/-- When `abort_txn` finds the victim active, the victim does not hold the slot whose mutex the
requester has locked. -/
def SparesKey : Nat → Call → Store → Pc → Prop
  | _, _, d, .abortCheck v caller => Active d v → ∀ k ∈ caller.key, ¬ KeyHeld d v k
  | _, _, _, _ => True

instance decidableSparesKey (th : Nat) (i : Call) (d : Store) (p : Pc) :
    Decidable (SparesKey th i d p) := by
  unfold SparesKey
  split <;> infer_instance

/-! ## The invariant -/

/-- Between `TXN_ABORTED` and the end of `release_all_locks`: the victim, and the slot that the
requester has asked for. -/
def nested : Pc → Option (Nat × Slot)
  | .clearEdges v caller | .freeWrites v caller | .releaseCheck v _ caller
  | .releaseLock v _ caller | .releaseOwner v _ caller | .releaseUnlock v _ caller
  | .releaseClear v _ caller => caller.key.map fun k => (v, k)
  | _ => none

theorem key_mem_held_of_nested {v : Nat} (h : nested p = some (v, k)) : Mutex.key k ∈ held p := by
  have mem_caller : ∀ {u : Nat} {caller : Caller},
      (caller.key.map fun k => (u, k)) = some (v, k) → Mutex.key k ∈ caller.held := by
    intro u caller hcaller
    cases caller with
    | victim r owner =>
      cases hcaller
      exact mem_singleton.2 rfl
    | _ => cases hcaller
  cases p with
  | clearEdges u caller | freeWrites u caller => exact mem_cons_of_mem _ (mem_caller h)
  | releaseCheck u i caller | releaseLock u i caller | releaseClear u i caller =>
    exact mem_cons_of_mem _ (mem_caller h)
  | releaseOwner u x caller | releaseUnlock u x caller =>
    exact mem_cons_of_mem _ (mem_cons_of_mem _ (mem_caller h))
  | _ => cases h

theorem Locks.nested_eq {next : Pc} {m : Mutex} (h : Locks p m next) : nested next = nested p := by
  cases h <;> rfl

theorem Unlocks.nested_eq {next : Pc} {m : Mutex} (h : Unlocks p m next) :
    nested next = nested p := by
  cases h with
  | txn v caller => cases caller <;> rfl
  | _ => rfl

/-- A nested release begins with the status change in `abort_txn`. -/
theorem Acts.nested_eq (h : Acts th d p d' p') {v : Nat} (hn : nested p' = some (v, k)) :
    nested p = some (v, k) ∨ ∃ caller, p = .abortCheck v caller ∧ k ∈ caller.key ∧ Active d v := by
  cases h with
  | abort u caller T hT hactive =>
    cases caller with
    | victim r owner =>
      cases hn
      exact .inr ⟨_, rfl, rfl, T, hT, hactive⟩
    | _ => cases hn
  | clearEdges u caller | freeWrites u caller | releaseHeld u x caller | releaseOwner u x caller
  | releaseClear u x caller | releaseSkip u x caller => exact .inl hn
  | releaseEnd u i caller => cases caller <;> cases hn
  | _ => cases hn

/-- No nested release will come upon the mutex that its thread holds. -/
def Spared (d : Store) (p : Pc) : Prop :=
  ∀ v k, nested p = some (v, k) → ¬ KeyHeld d v k

theorem Acts.spared {i : Call} (h : Acts th d p d' p') (hok : SparesKey th i d p)
    (hp : Spared d p) : Spared d' p' := by
  intro v k hn hk
  rcases h.nested_eq hn with hn' | ⟨caller, rfl, hkey, hactive⟩
  · rcases h.keyHeld hk with hk' | ⟨r, rfl, -⟩
    · exact hp v k hn' hk'
    · cases hn'
  · rcases h.keyHeld hk with hk' | ⟨r, hr, -⟩
    · exact hok hactive k hkey hk'
    · cases hr

/-- Only a thread that has locked the slot could make the victim hold it. -/
theorem Acts.spared_frame {q : Pc} (h : Acts th d p d' p')
    (hdisj : ∀ m ∈ held p, m ∉ held q) (hq : Spared d q) : Spared d' q := by
  intro v k hn hk
  rcases h.keyHeld hk with hk' | ⟨r, rfl, -, rfl⟩
  · exact hq v k hn hk'
  · exact hdisj (.key r.idx) (mem_singleton.2 rfl) (key_mem_held_of_nested hn)

theorem spared_step {c c' : Config Mutex Store Pc} {i : Call}
    (hc : outline.Holds c ∧ ∀ u, Spared c.data (c.pc u))
    (hok : SparesKey th i c.data (c.pc th)) (hs : step code c (th, i) = some c') :
    outline.Holds c' ∧ ∀ u, Spared c'.data (c'.pc u) := by
  rcases hc with ⟨hO, hspared⟩
  refine ⟨Outline.step_holds hO trivial hs, ?_⟩
  rcases step_cases hs with ⟨m, mark, next, hcode, -, rfl⟩ | ⟨m, next, hcode, rfl⟩ |
    ⟨f, d, p, hcode, hf, rfl⟩
  · rcases locks_of_code hcode with ⟨rfl, hl⟩
    refine (forall_update_iff c.pc fun _ q => Spared c.data q).2 ⟨?_, fun u _ => hspared u⟩
    simpa [Spared, hl.nested_eq] using hspared th
  · refine (forall_update_iff c.pc fun _ q => Spared c.data q).2 ⟨?_, fun u _ => hspared u⟩
    simpa [Spared, (unlocks_of_code hcode).nested_eq] using hspared th
  · have hact := acts_of_code hcode hf
    exact (forall_update_iff c.pc fun _ q => Spared d q).2
      ⟨hact.spared hok (hspared th), fun u hu => hact.spared_frame (hO.disjoint hu) (hspared u)⟩

/-! ## Self-locking -/

/-- In a run in which every active victim of a nested abort holds other slots than the one asked
for, no thread ever asks for a mutex that it holds itself. -/
theorem no_self_lock (as : List (Nat × Call)) (c : Config Mutex Store Pc)
    (h : run code init as = some c) (hm : Meets code SparesKey init as) (th : Nat) :
    ¬ BlockedBy code c th th := by
  have hinit : outline.Holds init ∧ ∀ u, Spared init.data (init.pc u) := by
    refine ⟨outline_init, ?_⟩
    nofun
  rcases run_induction (J := fun c => outline.Holds c ∧ ∀ u, Spared c.data (c.pc u))
    spared_step hinit hm h with ⟨hO, hspared⟩
  rintro ⟨m, mark, next, hcode, ho⟩
  have hheld : m ∈ held (c.pc th) := (hO.owns m th).1 ho
  have hat := at_of_holds hO th
  have hsp := hspared th
  have hl := (locks_of_code hcode).2
  generalize c.pc th = p at hheld hat hsp hl
  cases hl with
  | abort v caller =>
    -- inside `acquire_key_lock` only slots are held
    cases caller <;> simp [held, Caller.held] at hheld
  | release v k caller =>
    -- the slot of the victim would be the one asked for
    cases caller with
    | victim r owner =>
      have hk : k = r.idx := by simpa [held, Caller.held] using hheld
      exact hsp v k (by rw [hk]; rfl) hat.2
    | _ => simp [held, Caller.held] at hheld
  | _ => cases hheld

/-- Transactions `1`, `2`, `3` of threads `0`, `1`, `2` own one slot each and wait for the next
one's in a circle; `1` comes last and aborts `3`, the youngest. -/
def thirdIsVictim : List (Nat × Call) :=
  List.flatten
    [[(0, .createTxn), (1, .createTxn), (2, .createTxn)],
      List.replicate 8 (0, .txnWrite 1 bracketKey CString.empty),
      List.replicate 8 (1, .txnWrite 2 backslashKey CString.empty),
      List.replicate 8 (2, .txnWrite 3 closingKey CString.empty),
      List.replicate 9 (1, .txnWrite 2 closingKey CString.empty),
      List.replicate 9 (2, .txnWrite 3 bracketKey CString.empty),
      List.replicate 17 (0, .txnWrite 1 backslashKey CString.empty)]

theorem no_self_lock_thirdIsVictim : ∃ c, run code init thirdIsVictim = some c ∧
      (c.data.txns 3).map Transaction.status = some .aborted ∧ c.data.owner 2 = 0 ∧
      ¬ BlockedBy code c 0 0 := by
  obtain ⟨c, hc, hstatus, howner⟩ : ∃ c, run code init thirdIsVictim = some c ∧
      (c.data.txns 3).map Transaction.status = some .aborted ∧ c.data.owner 2 = 0 :=
    exists_of_run _ (by decide +kernel)
  exact ⟨c, hc, hstatus, howner, no_self_lock thirdIsVictim c hc (by decide +kernel) 0⟩

/-- Transaction `2` owns the second slot and waits for the first one, which `1` owns; then `1` asks
for the second slot. -/
def ownerIsVictim : List (Nat × Call) :=
  List.flatten
    [[(0, .createTxn), (1, .createTxn)], List.replicate 8 (0, .txnWrite 1 bracketKey CString.empty),
      List.replicate 8 (1, .txnWrite 2 backslashKey CString.empty),
      List.replicate 9 (1, .txnWrite 2 bracketKey CString.empty),
      List.replicate 13 (0, .txnWrite 1 backslashKey CString.empty)]

/-- The requester holds the mutex of the slot, the younger owner of the slot is the victim, and
`release_all_locks` asks for the same mutex again. -/
theorem victim_owns_key : ∃ c r, run code init ownerIsVictim = some c ∧
    c.pc 0 = .releaseLock 2 r.idx (.victim r 2) ∧ c.owner (.key r.idx) = some 0 ∧
    BlockedBy code c 0 0 := by
  obtain ⟨c, hc, hpc, howner⟩ : ∃ c, run code init ownerIsVictim = some c ∧
      c.pc 0 = .releaseLock 2 1 (.victim ⟨1, 1, CString.empty⟩ 2) ∧ c.owner (.key 1) = some 0 :=
    exists_of_run _ (by decide +kernel)
  have hcode : code (c.pc 0) =
    .lock (.key 1) noMark (.releaseOwner 2 1 (.victim ⟨1, 1, CString.empty⟩ 2)) := by
    rw [hpc]
    rfl
  exact ⟨c, ⟨1, 1, CString.empty⟩, hc, hpc, howner, .key 1, noMark, _, hcode, howner⟩

end SystemsLab.LockStore
