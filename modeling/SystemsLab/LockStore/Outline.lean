import SystemsLab.LockStore.Frame

/-!
# The proof outline of the locking store
-/

namespace SystemsLab.LockStore

open Concurrent KeyStore PartialMap List

/-! ## What an act leaves alone -/

variable {th v t : Nat} {d d' : Store} {caller : Caller} {T : Transaction} {w : WriteEntry}
  {done : List WriteEntry} {p p' next : Pc} {m : Mutex} {u : Nat} {rest : List WriteEntry}
  {r : Request} {c : Config Mutex Store Pc}

theorem Releasing.driver_ne (hu : u ≠ th) (h : Releasing th d v caller) (ha : Active d v) :
    d.driver v ≠ some u := by
  cases caller with
  | commit =>
    rcases h with ⟨T, hT, -⟩
    simp [hT.driver, hu.symm]
  | plain => exact absurd ha h.2
  | victim r owner => exact absurd ha h.1.2

theorem Releasing.inactive (hne : caller ≠ .commit) (h : Releasing th d v caller) :
    Inactive d v := by
  cases caller with
  | commit => exact absurd rfl hne
  | plain => exact h
  | victim r owner => exact h.1

theorem Copying.owner_eq (hinv : Inv d) (h : Copying th d t T done (w :: rest)) :
    d.owner w.keyIdx = t := by
  refine hinv.owned t T h.txn h.active _ ?_
  rw [h.writes]
  exact mem_slots (by simp)

theorem Acts.frame {q : Mutex → Prop} (h : Acts th d p d' p') (hinv : Inv d)
    (hp : At th d p) (hu : u ≠ th) (hq : ∀ m ∈ held p, ¬ q m) : Frame u q d d' := by
  have hdriver : ∀ t, d.driver t = some th → d.driver t ≠ some u := by
    intro t ht
    simp [ht, hu.symm]
  -- acts on the thread's own transactions are out of the frame by `hdriver`, acts under a
  -- transaction's mutex by `hq`
  cases h with
  | create => exact .create hinv hu
  | openKey t key value idx => exact .openKey hinv key idx
  | take r hfree => exact .setOwner hinv hfree (hdriver _ hp.driver)
  | setHeld r T hT =>
    refine Frame.setTxn hT (fun hst => hst) (fun _ => hdriver _ hp.1.driver) ?_
    intro _ k hk
    by_cases hki : k = r.idx
    · simp [hki]
    · simpa [hki] using hk
  | addEdge r owner => exact .setEdge (hdriver _ hp.1.driver)
  | selfRemoveEdge r owner | removeEdge r owner => exact .setEdge (hdriver _ hp.driver)
  | sleep r owner T hT hsleep | spurious r owner => exact { Frame.refl u q d with }
  | insert r T hT =>
    exact .setTxn hT (fun hst => hst) (fun _ => hdriver _ hp.1.driver) (fun _ _ hk => hk)
  | abort v caller T hT hactive =>
    exact .setTxn_held hT (fun _ => hactive) (hq _ (by simp [held]))
  | clearEdges v caller => exact .clearEdges (hp.2.inactive hp.1).2
  | freeWrites v caller T hT | releaseClear v k caller T hT | copied t T hT =>
    exact .setTxn_held hT (fun hst => hst) (hq _ (by simp [held]))
  | releaseOwner v k caller =>
    -- the one act on slots of a transaction that `u` may drive, which is inactive then
    exact .release hinv fun ha => hp.1.driver_ne hu ha
  | commitEmpty t T hT hactive hw =>
    exact .logCommit hinv hT hactive (hdriver _ hp.1) (hq _ (by simp [held]))
  | commitBegin t T hT hactive hw => exact .setCopying (hdriver _ hp.1) (hq _ (by simp [held]))
  | copyMore t w x rest =>
    rcases hp with ⟨T, done, hc⟩
    exact .copyEntry (hc.owner_eq hinv) (hdriver _ hc.driver)
  | copyLast t w T hT =>
    rcases hp with ⟨U, done, hc⟩
    cases hc.txn.symm.trans hT
    have hown := hc.owner_eq hinv
    have hcopy : d.copying (d.owner w.keyIdx) = true := by rw [hown]; exact hc.copying
    exact (Frame.copyEntry hown (hdriver _ hc.driver)).trans hinv
      (Frame.logCommit (hinv.copyEntry hcopy) hT hc.active (hdriver _ hc.driver)
        (hq _ (by simp [held])))
  | setCommitted t T hT =>
    refine Frame.setTxn_held hT (fun hst => ?_) (hq _ (by simp [held]))
    cases hst
  | _ => exact .refl u q d

/-! ## The thread's own acts -/

/-- Away from the copy loop, nothing that the thread drives is being copied. -/
theorem CopyOk.copying_eq_false (h : CopyOk th d p)
    (hp : ∀ t w rest, p ≠ .copy t (w :: rest)) (ht : d.driver t = some th) :
    d.copying t = false := by
  cases hc : d.copying t with
  | false => rfl
  | true =>
    rcases h t ht hc with ⟨w, rest, hpc⟩
    exact absurd hpc (hp t w rest)

theorem Releasing.release (hinv : Inv d)
    (h : Releasing th d v caller) (hcopy : d.driver v = some th → d.copying v = false) (k : Slot) :
    Inv (d.release k v) := by
  have habort : Inactive d v → Inv (d.release k v) := by
    intro hv
    refine hinv.release (hinv.copying_eq_false hv.2) ?_
    intro T hT hactive
    exact absurd ⟨T, hT, hactive⟩ hv.2
  cases caller with
  | commit =>
    rcases h with ⟨U, hU, hw⟩
    refine hinv.release (hcopy hU.driver) ?_
    intro T hT _
    rwa [Option.some.inj (hT.symm.trans hU.txn)]
  | plain => exact habort h
  | victim r owner => exact habort h.1

/-- After the last copy, every slot that the transaction owns has its new value. -/
theorem Copying.logCommit (hinv : Inv d) (h : Copying th d t T done [w]) :
    Inv ((d.copyEntry w).logCommit t T) := by
  have hown := h.owner_eq hinv
  have hcopy : d.copying (d.owner w.keyIdx) = true := by
    rw [hown]
    exact h.copying
  have hnodup := hinv.writes_nodup t T h.txn
  refine (hinv.copyEntry hcopy).logCommit h.txn h.active h.unlogged ?_
  intro k (hk : d.owner k = t)
  -- a slot of `t` is the one just copied, one copied before, or one that `t` has not written
  by_cases hkw : k = w.keyIdx
  · subst hkw
    have hmem : w ∈ T.writes := by simp [h.writes]
    calc
      (d.copyEntry w).value w.keyIdx = w.value := by simp [Store.copyEntry]
      _ = execute (serial d.log) T.writes w.keyIdx := (execute_of_mem hnodup hmem).symm
  · have hval : (d.copyEntry w).value k = d.value k := by simp [Store.copyEntry, hkw]
    by_cases hkd : k ∈ slots done
    · rcases mem_map.1 hkd with ⟨x, hx, rfl⟩
      have hmem : x ∈ T.writes := by simp [h.writes, hx]
      calc
        (d.copyEntry w).value x.keyIdx = d.value x.keyIdx := hval
        _ = x.value := h.copied x hx
        _ = execute (serial d.log) T.writes x.keyIdx := (execute_of_mem hnodup hmem).symm
    · have hnot : k ∉ slots T.writes := by
        simp only [h.writes, slots, map_append, map_cons, map_nil, mem_append, mem_singleton]
        rintro (hmem | hmem)
        · exact hkd hmem
        · exact hkw hmem
      calc
        (d.copyEntry w).value k = d.value k := hval
        _ = serial d.log k := h.untouched k hk hkd
        _ = execute (serial d.log) T.writes k := (execute_of_not_mem hnot).symm

theorem Active.of_txn (hT : d.txns t = some T) (h : T.status = .active) : Active d t := ⟨T, hT, h⟩

theorem Acts.inv (h : Acts th d p d' p') (hinv : Inv d) (hp : Local th d p) : Inv d' := by
  rcases hp with ⟨hcopy, hp⟩
  cases h with
  | create => exact hinv.create th
  | openKey t key value idx => exact hinv.openKey key idx
  | take r hfree => exact hinv.setOwner hfree hp.used (hinv.driver_known _ th hp.driver)
  | setHeld r T hT => exact hinv.setHeld hT r.idx true
  | addEdge r owner => exact hinv.setEdge fun _ => ⟨hinv.driver_known _ th hp.1.driver, hp.2⟩
  | selfRemoveEdge r owner | removeEdge r owner => exact hinv.setEdge (by simp)
  | sleep r owner T hT hsleep | spurious r owner => exact { hinv with }
  | insert r T hT => exact hinv.insert hT (fun hst => hp.2 (Active.of_txn hT hst)) r.value
  | abort v caller T hT hactive =>
    rcases hp.2.2.2 (Active.of_txn hT hactive) with ⟨hc, hl⟩
    exact hinv.setAborted hT hc hl
  | clearEdges v caller => exact hinv.clearEdges v
  | freeWrites v caller T hT | copied t T hT => exact hinv.freeWrites hT
  | releaseOwner v k caller =>
    refine hp.1.release hinv (fun hd => ?_) k
    exact hcopy.copying_eq_false (by simp) hd
  | releaseClear v k caller T hT => exact hinv.setHeld hT k false
  | commitEmpty t T hT hactive hw =>
    -- nothing to copy: the commit counts at once and changes no serial value
    rcases hp.2 (Active.of_txn hT hactive) with ⟨hc, hl⟩
    refine hinv.logCommit hT hactive hl ?_
    intro k hk
    have hval := hinv.values k (by rw [hk]; exact hc)
    rwa [hw]
  | commitBegin t T hT hactive hw => exact hinv.beginCopy (Active.of_txn hT hactive) hp.1
  | copyMore t w x rest =>
    rcases hp with ⟨T, done, hc⟩
    refine hinv.copyEntry ?_
    rw [hc.owner_eq hinv]
    exact hc.copying
  | copyLast t w T hT =>
    rcases hp with ⟨U, done, hc⟩
    cases hc.txn.symm.trans hT
    exact hc.logCommit hinv
  | setCommitted t T hT =>
    rcases hp with ⟨U, hU⟩
    exact hinv.setCommitted hT (hcopy.copying_eq_false (by simp) hU.driver) hU.logged
  | _ => exact hinv

/-- The part of the data that says who drives what, what exists and what has committed. -/
structure SameBook (d d' : Store) : Prop where
  driver : d'.driver = d.driver
  txns : d'.txns = d.txns
  log : d'.log = d.log
  copying : d'.copying = d.copying

theorem sameBook_openKey (d : Store) (key : CString) (idx : Slot) :
    SameBook d (d.openKey key idx) := by
  unfold Store.openKey
  split <;> exact ⟨rfl, rfl, rfl, rfl⟩

theorem sameBook_setEdge (d : Store) (a b : Nat) (x : Bool) :
    SameBook d (d.setEdge a b x) ∧ (d.setEdge a b x).keys = d.keys := by
  unfold Store.setEdge
  split <;> exact ⟨⟨rfl, rfl, rfl, rfl⟩, rfl⟩

theorem sameBook_release (d : Store) (k : Slot) (v : Nat) :
    SameBook d (d.release k v) ∧ (d.release k v).keys = d.keys := by
  unfold Store.release
  split <;> exact ⟨⟨rfl, rfl, rfl, rfl⟩, rfl⟩

theorem Writing.congr (h : Writing th d r) (hd : d'.driver = d.driver) (hk : d'.keys = d.keys) :
    Writing th d' r :=
  ⟨hd ▸ h.driver, hk ▸ h.used⟩

theorem Writing.setEdge (h : Writing th d r) (a b : Nat) (x : Bool) :
    Writing th (d.setEdge a b x) r :=
  h.congr (sameBook_setEdge d a b x).1.driver (sameBook_setEdge d a b x).2

theorem SameBook.inactive (h : SameBook d d') (hv : Inactive d v) : Inactive d' v := by
  simpa [Inactive, Active, h.txns] using hv

theorem SameBook.releasing (h : SameBook d d') (hk : d'.keys = d.keys)
    (hr : Releasing th d v caller) : Releasing th d' v caller := by
  cases caller with
  | commit =>
    rcases hr with ⟨T, ⟨hd, hT, ha, hl⟩, hw⟩
    refine ⟨T, ⟨h.driver ▸ hd, h.txns ▸ hT, ha, ?_⟩, hw⟩
    simpa [Logged, h.log] using hl
  | plain => exact h.inactive hr
  | victim r owner => exact ⟨h.inactive hr.1, hr.2.congr h.driver hk⟩

theorem Releasing.setTxn {T' : Transaction}
    (h : Releasing th d v caller) (hT : d.txns v = some T) (hst : T'.status = T.status)
    (hw : T.writes = [] → T'.writes = []) : Releasing th (d.setTxn v T') v caller := by
  have hinactive : Inactive d v → Inactive (d.setTxn v T') v := by
    intro hv
    refine ⟨(Inv.known_setTxn hT).2 hv.1, ?_⟩
    rintro ⟨U, hU, hactive⟩
    have hUT : T' = U := Option.some.inj ((Inv.setTxn_self v T').symm.trans hU)
    exact hv.2 ⟨T, hT, by rw [← hst, hUT]; exact hactive⟩
  cases caller with
  | commit =>
    rcases h with ⟨U, hU, hnil⟩
    cases hU.txn.symm.trans hT
    exact ⟨T', ⟨hU.driver, Inv.setTxn_self v T', hst.trans hU.active, hU.logged⟩, hw hnil⟩
  | plain => exact hinactive h
  | victim r owner => exact ⟨hinactive h.1, h.2.driver, h.2.used⟩

theorem Inactive.setStatus {st : TxnStatus} (hst : st ≠ .active) :
    Inactive (d.setStatus v T st) v := by
  refine ⟨by simp [Store.setStatus, Store.setTxn], ?_⟩
  rintro ⟨U, hU, hactive⟩
  rcases update_cases hU with ⟨-, rfl⟩ | ⟨hne, -⟩
  · exact hst hactive
  · exact hne rfl

theorem Inactive.of_txn (hT : d.txns v = some T) (hne : T.status ≠ .active) : Inactive d v := by
  refine ⟨by simp [hT], ?_⟩
  rintro ⟨U, hU, hactive⟩
  rw [Option.some.inj (hU.symm.trans hT)] at hactive
  exact hne hactive

theorem Copying.copyEntry (hinv : Inv d) (h : Copying th d t T done (w :: rest)) :
    Copying th (d.copyEntry w) t T (done ++ [w]) rest := by
  have hnodup : (slots done ++ w.keyIdx :: slots rest).Nodup := by
    have := hinv.writes_nodup t T h.txn
    simpa [h.writes, slots] using this
  refine { h with writes := by simp [h.writes], copied := ?_, untouched := ?_ }
  · intro x hx
    rcases mem_append.1 hx with hx | hx
    · -- the other entries lie in other slots
      have hne : x.keyIdx ≠ w.keyIdx := (nodup_append.1 hnodup).2.2 _ (mem_slots hx) _ mem_cons_self
      simpa [Store.copyEntry, hne] using h.copied x hx
    · rw [mem_singleton.1 hx]
      simp [Store.copyEntry]
  · intro k (hk : d.owner k = t) hnot
    have hnot' : k ∉ slots done ∧ k ≠ w.keyIdx := by simpa [slots] using hnot
    simpa [Store.copyEntry, hnot'.2] using h.untouched k hk hnot'.1

theorem Acts.establishes (h : Acts th d p d' p') (hinv : Inv d) (hp : At th d p) : At th d' p' := by
  cases h with
  | createFull | create | insert r T hT => trivial
  | callWrite t key value hdriver | callCommit t hdriver => exact hdriver
  | callAbort t hknown => exact ⟨hknown, by simp, trivial⟩
  | openKey t key value idx =>
    refine ⟨(sameBook_openKey d key idx).driver ▸ hp, ?_⟩
    by_cases hidx : d.keys idx = none
    · simpa [Store.openKey, hidx] using useSlot_self d.keys key idx
    · simp [Store.openKey, hidx]
  | statusActive r | statusInactive r | noCycle r owner hnone | woken r owner
  | releaseSkip v i caller => exact hp
  | take r hfree => exact ⟨⟨hp.driver, hp.used⟩, fun _ => by simp [Store.setOwner]⟩
  | mine r hmine => exact ⟨hp, fun _ => hmine⟩
  | other r hzero => exact ⟨hp, (hinv.owner_known _ hzero).2⟩
  | setHeld r T hT =>
    -- the status stays, so does the claim on the slot
    refine ⟨⟨hp.1.driver, hp.1.used⟩, ?_⟩
    rintro ⟨U, hU, hactive⟩
    rcases update_cases hU with ⟨-, rfl⟩ | ⟨hne, -⟩
    · exact hp.2 ⟨T, hT, hactive⟩
    · exact absurd rfl hne
  | addEdge r owner =>
    -- identifiers start at `1`, so `add_wait_edge` does not return early
    have hbook := (sameBook_setEdge d r.txn owner true).1
    refine ⟨hp.1.setEdge _ _ _, ⟨by rw [hbook.txns]; exact hp.2, fun _ _ => ?_⟩⟩
    have htxn := (hinv.id_range _ (hinv.driver_known _ th hp.1.driver)).1
    have howner := (hinv.id_range _ hp.2).1
    have hne : ¬ (r.txn = 0 ∨ owner = 0) := by omega
    simp [Store.setEdge, hne]
  | selfVictim r owner | noSleep r owner => exact hp.1
  | victim r owner v hknown => exact ⟨hknown, by simp, hp.1⟩
  | selfRemoveEdge r owner | removeEdge r owner => exact hp.setEdge _ _ _
  | sleep r owner T hT hsleep | spurious r owner =>
    exact ⟨⟨hp.1.driver, hp.1.used⟩, ⟨hp.2.known, hp.2.edge⟩⟩
  | abort v caller T hT hactive =>
    -- from here on the victim is inactive, whoever drives it
    rcases hp with ⟨-, hne, hcaller, -⟩
    refine ⟨hne, ?_⟩
    cases caller with
    | commit => exact absurd rfl hne
    | plain => exact .setStatus (by simp)
    | victim r owner => exact ⟨Inactive.setStatus (by simp), hcaller.driver, hcaller.used⟩
  | abortRefused v caller T hT hne => exact ⟨Inactive.of_txn hT hne, hp.2.2.1⟩
  | clearEdges v caller =>
    have hbook : SameBook d (d.clearEdges v) := ⟨rfl, rfl, rfl, rfl⟩
    exact ⟨hp.1, hbook.releasing rfl hp.2⟩
  | freeWrites v caller T hT => exact hp.2.setTxn hT rfl (fun _ => rfl)
  | releaseHeld v k caller T hT hheld => exact ⟨hp, T, hT, hheld⟩
  | releaseEnd v i caller =>
    cases caller with
    | commit =>
      rcases hp with ⟨T, hT, -⟩
      exact ⟨T, hT⟩
    | plain => exact ⟨hp, trivial⟩
    | victim r owner => exact hp
  | releaseOwner v k caller =>
    rcases sameBook_release d k v with ⟨hbook, hkeys⟩
    exact ⟨hbook.releasing hkeys hp.1, hp.2⟩
  | releaseClear v k caller T hT => exact .setTxn hp hT rfl (fun hw => hw)
  | commitRefused t T hT hne => exact ⟨Inactive.of_txn hT hne, trivial⟩
  | commitEmpty t T hT hactive hw => exact ⟨T, hp.1, hT, hactive, _, mem_cons_self, rfl⟩
  | commitBegin t T hT hactive hw =>
    -- before the first copy every slot of `t` has its serial value
    rcases hp.2 (Active.of_txn hT hactive) with ⟨hcopy, hl⟩
    rcases exists_cons_of_ne_nil hw with ⟨w, rest, hwr⟩
    rw [hwr]
    refine ⟨T, [], hp.1, hT, hactive, hwr, by simp [Store.beginCopy], hl, by simp, ?_⟩
    intro k (hk : d.owner k = t) _
    exact hinv.values k (by rw [hk]; exact hcopy)
  | copyMore t w x rest =>
    rcases hp with ⟨T, done, hc⟩
    exact ⟨T, done ++ [w], hc.copyEntry hinv⟩
  | copyLast t w T hT =>
    rcases hp with ⟨U, done, hc⟩
    cases hc.txn.symm.trans hT
    exact ⟨T, hc.driver, hT, hc.active, _, mem_cons_self, rfl⟩
  | copied t T hT =>
    rcases hp with ⟨U, hU⟩
    cases hU.txn.symm.trans hT
    exact ⟨_, ⟨hU.driver, Inv.setTxn_self t _, hU.active, hU.logged⟩, rfl⟩
  | setCommitted t T hT => exact ⟨Inactive.setStatus (by simp), trivial⟩

/-- Only a commit marks its transaction as being copied, and it takes the mark back at the end. -/
theorem Acts.copyOk (h : Acts th d p d' p') (hinv : Inv d) (hp : CopyOk th d p) :
    CopyOk th d' p' := by
  -- where the marks stay and nothing is copied, there are none
  have same : d'.driver = d.driver → d'.copying = d.copying →
      (∀ t w rest, p ≠ .copy t (w :: rest)) → CopyOk th d' p' := by
    intro hdriver hcopying hne t hd hc
    rw [hdriver] at hd
    rw [hcopying, hp.copying_eq_false hne hd] at hc
    cases hc
  cases h with
  | create =>
    intro t hd hc
    by_cases ht : t = d.nextTxnId
    · rcases (hinv.copying_active t hc).1 with ⟨T, hT, -⟩
      rw [ht, hinv.not_known_next] at hT
      cases hT
    · have hd' : d.driver t = some th := by simpa [Store.create, ht] using hd
      rcases hp t hd' hc with ⟨w, rest, hpc⟩
      cases hpc
  | openKey t key value idx =>
    exact same (sameBook_openKey d key idx).driver (sameBook_openKey d key idx).copying (by simp)
  | addEdge r owner | selfRemoveEdge r owner | removeEdge r owner =>
    exact same (sameBook_setEdge d r.txn owner _).1.driver
      (sameBook_setEdge d r.txn owner _).1.copying (by simp)
  | releaseOwner v k caller =>
    exact same (sameBook_release d k v).1.driver (sameBook_release d k v).1.copying (by simp)
  | commitEmpty t T hT hactive hw =>
    intro u hd hc
    by_cases hu : u = t
    · simp [Store.logCommit, hu] at hc
    · have hc' : d.copying u = true := by simpa [Store.logCommit, hu] using hc
      rcases hp u hd hc' with ⟨w, rest, hpc⟩
      cases hpc
  | commitBegin t T hT hactive hw =>
    intro u hd hc
    by_cases hu : u = t
    · rcases exists_cons_of_ne_nil hw with ⟨w, rest, hwr⟩
      exact ⟨w, rest, by rw [hu, hwr]⟩
    · have hc' : d.copying u = true := by simpa [Store.beginCopy, hu] using hc
      rcases hp u hd hc' with ⟨w, rest, hpc⟩
      cases hpc
  | copyMore t w x rest =>
    intro u hd hc
    rcases hp u hd hc with ⟨w', rest', hpc⟩
    cases hpc
    exact ⟨x, rest, rfl⟩
  | copyLast t w T hT =>
    intro u hd hc
    by_cases hu : u = t
    · simp [Store.logCommit, hu] at hc
    · have hc' : d.copying u = true := by simpa [Store.logCommit, Store.copyEntry, hu] using hc
      rcases hp u hd hc' with ⟨w', rest', hpc⟩
      cases hpc
      exact absurd rfl hu
  | _ => exact same rfl rfl (by simp)

theorem Acts.held_iff (h : Acts th d p d' p') (m : Mutex) : m ∈ held p' ↔ m ∈ held p := by
  cases h with
  | releaseEnd v i caller => cases caller <;> simp [held, Caller.released, Caller.held]
  | _ => simp [held, Caller.held]

theorem Acts.resource (h : Acts th d p d' p') (hinv : Inv d) (hp : At th d p) (hm : m ∉ held p)
    (hres : Resource m d) :
    Resource m d' := by
  cases m with
  | key k => trivial
  | txn t =>
    -- whoever may come for the mutex is not `th`
    have hframe : Frame (th + 1) (· = .txn t) d d' :=
      h.frame hinv hp (Nat.succ_ne_self th) (fun m' hm' e => hm (e ▸ hm'))
    exact hframe.uncommitted hinv rfl hres

/-! ## The outline -/

theorem Locks.establishes (h : Locks p m next)
    (hp : At th d p) (hm : m ∉ held p) (hres : Resource m d) : At th d next := by
  cases h with
  | acquire r => exact hp
  | relock r owner => exact hp
  | abort v caller => exact ⟨hp.1, hp.2.1, hp.2.2, hres⟩
  | release v k caller =>
    -- the thread gets the mutex only if it does not hold it already
    refine ⟨hp.1, ?_⟩
    intro hkey
    cases caller with
    | victim r owner =>
      cases hkey
      simp [held, Caller.held] at hm
    | _ => cases hkey
  | commit t => exact ⟨hp, hres⟩

theorem Unlocks.establishes
    (h : Unlocks p m next) (hinv : Inv d) (hp : At th d p) : Resource m d ∧ At th d next := by
  cases h with
  | acquired r => exact ⟨trivial, hp⟩
  | refused r => exact ⟨trivial, trivial⟩
  | self r => exact ⟨trivial, hinv.driver_known _ th hp.driver, by simp, trivial⟩
  | wait r owner => exact ⟨trivial, hp⟩
  | release v k caller => exact ⟨trivial, hp.1⟩
  | txn v caller =>
    -- the transaction is inactive, so there is nothing to give back
    refine ⟨fun ha => absurd ha hp.1.2, ?_⟩
    cases caller with
    | victim r owner => exact hp.2
    | _ => trivial

theorem Locks.held_iff (h : Locks p m next) (m' : Mutex) :
    m' ∈ held next ↔ m' = m ∨ m' ∈ held p := by
  cases h <;> simp [held]

theorem Unlocks.held_iff (h : Unlocks p m next)
    (hp : At th d p) : m ∈ held p ∧ ∀ m', m' ∈ held next ↔ m' ≠ m ∧ m' ∈ held p := by
  cases h with
  | release v k caller =>
    refine ⟨by simp [held], ?_⟩
    intro m'
    cases caller with
    | victim r owner =>
      have hne : r.idx ≠ k := fun e => hp.2 (by rw [← e]; rfl)
      simp only [held, Caller.held, mem_cons, not_mem_nil, or_false]
      constructor
      · rintro (rfl | rfl)
        · exact ⟨by simp, by simp⟩
        · exact ⟨by simpa using hne, by simp⟩
      · tauto
    | _ => cases m' <;> simp [held, Caller.held]
  | txn v caller =>
    refine ⟨by simp [held], ?_⟩
    intro m'
    cases caller <;> cases m' <;> simp [held, Caller.held, Caller.returned]
  | _ => simp [held, Caller.held]

def outline : Outline code (fun _ _ _ _ => True) where
  held := held
  inv := Inv
  res := Resource
  loc := Local
  lock_loc hc hinv hp hm hres := by
    rcases locks_of_code hc with ⟨rfl, hl⟩
    refine ⟨hinv, ?_, hl.establishes hp.at_pc hm hres⟩
    intro t hd hcopy
    rcases hp.copyOk t hd hcopy with ⟨w, rest, rfl⟩
    cases hl
  lock_held hc _ m' := (locks_of_code hc).2.held_iff m'
  lock_res hc _ _ _ _ _ hres := by
    rcases locks_of_code hc with ⟨rfl, -⟩
    exact hres
  lock_frame hc _ _ _ _ _ _ hq := by
    rcases locks_of_code hc with ⟨rfl, -⟩
    exact hq
  unlock_loc hc hinv hp := by
    have h := unlocks_of_code hc
    rcases h.establishes hinv hp.at_pc with ⟨hres, hat⟩
    refine ⟨hres, ?_, hat⟩
    intro t hd hcopy
    rcases hp.copyOk t hd hcopy with ⟨w, rest, rfl⟩
    cases h
  unlock_held hc hp := (unlocks_of_code hc).held_iff hp.at_pc
  act_loc hc _ hf hinv _ hp := by
    have h := acts_of_code hc hf
    exact ⟨h.inv hinv hp, h.copyOk hinv hp.copyOk, h.establishes hinv hp.at_pc⟩
  act_held hc hf _ m := (acts_of_code hc hf).held_iff m
  act_res hc _ hf hinv hp hm hres := (acts_of_code hc hf).resource hinv hp.at_pc hm hres
  act_frame := by
    intro th i own d p f d' p' u q hc _ hf hinv hp hu hdisj _ hq
    have hframe : Frame u (· ∈ held q) d d' :=
      (acts_of_code hc hf).frame hinv hp.at_pc hu hdisj
    exact hframe.preserves_local hinv (fun _ hm => hm) hq

theorem outline_init : outline.Holds init := by
  refine Outline.Holds.start rfl inv_initialStore ?_ ?_
  · intro m
    cases m with
    | key k => trivial
    | txn t =>
      rintro ⟨T, hT, -⟩
      cases hT
  · intro th
    refine ⟨?_, trivial⟩
    nofun

theorem outline_run {as : List (Nat × Call)} (h : run code init as = some c) : outline.Holds c :=
  Outline.run_holds outline_init (meets_of_forall (fun _ _ _ _ => trivial) as init) h

theorem at_of_holds (hO : outline.Holds c) (th : Nat) : At th c.data (c.pc th) :=
  Local.at_pc (hO.loc th)

end SystemsLab.LockStore
