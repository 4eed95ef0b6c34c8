import SystemsLab.Data.PartialMap
import SystemsLab.LockStore.Model

/-!
# What every access to the store preserves

* `Inv` — the invariant of the shared data: an active transaction owns the slots that it has
  written, and a slot whose owner is not copying has its serial value.
-/

namespace SystemsLab.LockStore

open KeyStore PartialMap Function List

/-! ## Serial execution -/

/-- A write list executed at once. -/
def execute (value : Slot → Value) (writes : List WriteEntry) : Slot → Value :=
  writes.foldl (fun value w => update value w.keyIdx w.value) value

/-- The commits, given with the last one first, executed one after the other. -/
def serial : List Commit → Slot → Value
  | [] => fun _ => CBuf.empty
  | e :: log => execute (serial log) e.writes

variable {value : Slot → Value} {writes : List WriteEntry}

theorem execute_of_not_mem {k : Slot} (hk : k ∉ slots writes) :
    execute value writes k = value k := by
  induction writes generalizing value with
  | nil => rfl
  | cons w ws ih =>
    have hne : k ≠ w.keyIdx := fun e => hk (by simp [slots, e])
    have hws : k ∉ slots ws := fun hmem => hk (mem_cons_of_mem _ hmem)
    calc
      execute value (w :: ws) k = execute (update value w.keyIdx w.value) ws k := rfl
      _ = update value w.keyIdx w.value k := ih hws
      _ = value k := update_of_ne hne _ _

theorem execute_of_mem (hn : (slots writes).Nodup) {w : WriteEntry} (hw : w ∈ writes) :
    execute value writes w.keyIdx = w.value := by
  induction writes generalizing value with
  | nil => cases hw
  | cons x ws ih =>
    rcases nodup_cons.1 hn with ⟨hx, hws⟩
    rcases mem_cons.1 hw with rfl | hw
    · calc
        execute value (w :: ws) w.keyIdx = execute (update value w.keyIdx w.value) ws w.keyIdx :=
          rfl
        _ = update value w.keyIdx w.value w.keyIdx := execute_of_not_mem hx
        _ = w.value := update_self ..
    · exact ih hws hw

/-! ## The invariant -/

def Active (d : Store) (t : Nat) : Prop :=
  ∃ T, d.txns t = some T ∧ T.status = .active

instance decidableActive (d : Store) (t : Nat) : Decidable (Active d t) :=
  match hT : d.txns t with
  | none => isFalse fun ⟨_, hU, _⟩ => by simp [hT] at hU
  | some T =>
    decidable_of_iff (T.status = .active)
      ⟨fun h => ⟨T, hT, h⟩, fun ⟨_, hU, h⟩ => Option.some.inj (hU.symm.trans hT) ▸ h⟩

def Logged (d : Store) (t : Nat) : Prop :=
  ∃ e ∈ d.log, e.txn = t

structure Inv (d : Store) : Prop where
  nextTxnId_pos : 1 ≤ d.nextTxnId
  id_range : ∀ t, d.txns t ≠ none → 1 ≤ t ∧ t < d.nextTxnId
  driver_known : ∀ t th, d.driver t = some th → d.txns t ≠ none
  owner_known : ∀ k, d.owner k ≠ 0 → d.keys k ≠ none ∧ d.txns (d.owner k) ≠ none
  unused : ∀ k, d.keys k = none → d.value k = CBuf.empty
  edge_known : ∀ a b, d.waitFor a b = true → d.txns a ≠ none ∧ d.txns b ≠ none
  writes_nodup : ∀ t T, d.txns t = some T → (slots T.writes).Nodup
  owned : ∀ t T, d.txns t = some T → T.status = .active → ∀ k ∈ slots T.writes, d.owner k = t
  values : ∀ k, d.copying (d.owner k) = false → d.value k = serial d.log k
  copying_active : ∀ t, d.copying t = true → Active d t ∧ ∃ th, d.driver t = some th
  log_status : ∀ e ∈ d.log, ∃ T, d.txns e.txn = some T ∧ T.status ≠ .aborted
  log_distinct : d.log.Pairwise fun e f => e.txn ≠ f.txn
  committed_logged : ∀ t T, d.txns t = some T → T.status = .committed → Logged d t

theorem inv_initialStore : Inv initialStore where
  nextTxnId_pos := le_refl _
  id_range := by simp [initialStore]
  driver_known := by simp [initialStore]
  owner_known := by simp [initialStore]
  unused := fun _ _ => rfl
  edge_known := by simp [initialStore]
  writes_nodup := by simp [initialStore]
  owned := by simp [initialStore]
  values := fun _ _ => rfl
  copying_active := by simp [initialStore]
  log_status := by simp [initialStore]
  log_distinct := List.Pairwise.nil
  committed_logged := by simp [initialStore]

namespace Inv

variable {d : Store} (h : Inv d)

include h

theorem not_known_zero : d.txns 0 = none := by
  by_contra hne
  exact absurd (h.id_range 0 hne).1 (by decide)

theorem not_known_next : d.txns d.nextTxnId = none := by
  by_contra hne
  exact absurd (h.id_range _ hne).2 (lt_irrefl _)

variable {t u : Nat} {T T' : Transaction} {idx : Slot}

theorem copying_eq_false (ht : ¬ Active d t) : d.copying t = false := by
  cases hc : d.copying t with
  | false => rfl
  | true => exact absurd (h.copying_active t hc).1 ht

theorem copying_zero : d.copying 0 = false := by
  refine h.copying_eq_false ?_
  rintro ⟨T, hT, -⟩
  simp [h.not_known_zero] at hT

omit h

/-! ## Transactions -/

theorem known_setTxn (hT : d.txns t = some T) : (d.setTxn t T').txns u ≠ none ↔ d.txns u ≠ none :=
  update_ne_none_iff.trans (or_iff_right_of_imp fun hu => by simp [hu, hT])

theorem setTxn_self (t : Nat) (T : Transaction) : (d.setTxn t T).txns t = some T := update_self ..

include h

section

variable (hT : d.txns t = some T)

include hT

/-- A transaction may change as long as it owns what it has written while it is active, stays active
while it is copied, does not abort after its commit and commits only after it. -/
theorem setTxn (hnodup : (slots T'.writes).Nodup)
    (howned : T'.status = .active → ∀ k ∈ slots T'.writes, d.owner k = t)
    (hcopy : d.copying t = true → T'.status = .active) (habort : Logged d t → T'.status ≠ .aborted)
    (hcommit : T'.status = .committed → Logged d t) : Inv (d.setTxn t T') :=
  { h with
    id_range := fun u hu => h.id_range u ((known_setTxn hT).1 hu)
    driver_known := fun u th hu => (known_setTxn hT).2 (h.driver_known u th hu)
    owner_known := fun k hk => (h.owner_known k hk).imp_right (known_setTxn hT).2
    edge_known := fun a b hab => (h.edge_known a b hab).imp (known_setTxn hT).2 (known_setTxn hT).2
    writes_nodup := forall_update hnodup h.writes_nodup
    owned := forall_update howned h.owned
    copying_active := fun u hu => (h.copying_active u hu).imp_left (exists_update fun hut =>
      hcopy (hut ▸ hu))
    log_status := fun e he => exists_update (fun het => habort ⟨e, he, het⟩) (h.log_status e he)
    committed_logged := forall_update hcommit h.committed_logged }

theorem setTxn_keep (hst : T'.status = T.status) (hnodup : (slots T'.writes).Nodup)
    (howned : T.status = .active → ∀ k ∈ slots T'.writes, d.owner k = t) : Inv (d.setTxn t T') := by
  refine h.setTxn hT hnodup (fun ha => howned (hst ▸ ha)) ?_ ?_ ?_
  · intro hc
    rcases (h.copying_active t hc).1 with ⟨U, hU, hactive⟩
    rwa [hst, Option.some.inj (hT.symm.trans hU)]
  · rintro ⟨e, he, rfl⟩
    rcases h.log_status e he with ⟨U, hU, hne⟩
    rwa [hst, Option.some.inj (hT.symm.trans hU)]
  · rw [hst]
    exact h.committed_logged t T hT

theorem setHeld (idx : Slot) (b : Bool) : Inv (d.setHeld t T idx b) :=
  h.setTxn_keep hT rfl (h.writes_nodup t T hT) (h.owned t T hT)

theorem insert (howns : T.status = .active → d.owner idx = t) (value : CString) :
    Inv (d.insert t T idx value) := by
  refine h.setTxn_keep hT rfl (nodup_slots_putWrite (h.writes_nodup t T hT) _ _) ?_
  intro hactive k hk
  rcases mem_slots_putWrite.1 hk with rfl | hk
  · exact howns hactive
  · exact h.owned t T hT hactive k hk

theorem freeWrites : Inv (d.freeWrites t T) :=
  h.setTxn_keep hT rfl nodup_nil (by simp [slots])

theorem setAborted (hcopy : d.copying t = false) (hlog : ¬ Logged d t) :
    Inv (d.setStatus t T .aborted) :=
  h.setTxn hT (h.writes_nodup t T hT) (by simp) (by simp [hcopy])
    (fun hl => absurd hl hlog) (by simp)

theorem setCommitted (hcopy : d.copying t = false) (hlog : Logged d t) :
    Inv (d.setStatus t T .committed) :=
  h.setTxn hT (h.writes_nodup t T hT) (by simp) (by simp [hcopy]) (by simp) (fun _ => hlog)

end

/-- The new identifier occurs nowhere yet. -/
theorem create (th : Nat) : Inv (d.create th) := by
  have hkeep : ∀ {u}, d.txns u ≠ none → (d.create th).txns u ≠ none := update_ne_none
  refine ⟨Nat.le_add_left 1 _, fun u hu => ?_, fun u th' hu => ?_,
    fun k hk => (h.owner_known k hk).imp_right hkeep,
    h.unused, fun a b hab => (h.edge_known a b hab).imp hkeep hkeep,
      forall_update (by simp [slots]) h.writes_nodup,
    forall_update (by simp [slots]) h.owned, h.values, fun u hu => ?_,
    fun e he => exists_update_new h.not_known_next (h.log_status e he), h.log_distinct,
    forall_update (by simp) h.committed_logged⟩
  · rcases update_ne_none_iff.1 hu with rfl | hu
    · exact ⟨h.nextTxnId_pos, Nat.lt_succ_self _⟩
    · exact (h.id_range u hu).imp_right Nat.lt_succ_of_lt
  · by_cases hun : u = d.nextTxnId
    · exact update_ne_none_iff.2 (.inl hun)
    · have hd : d.driver u = some th' := by simpa [Store.create, hun] using hu
      exact hkeep (h.driver_known u th' hd)
  · rcases h.copying_active u hu with ⟨hactive, th', hd⟩
    have hne : u ≠ d.nextTxnId := by
      rintro rfl
      exact h.driver_known _ th' hd h.not_known_next
    exact ⟨exists_update_new h.not_known_next hactive, th', by simpa [Store.create, hne] using hd⟩

/-! ## Slots and edges -/

/-- A new slot has its initial contents already. -/
theorem openKey_fields (key : CString) (idx : Slot) :
    (d.openKey key idx).value = d.value ∧ (d.openKey key idx).owner = d.owner := by
  by_cases hidx : d.keys idx = none
  · have howner : d.owner idx = 0 := by
      by_contra hne
      exact (h.owner_known idx hne).1 hidx
    refine ⟨?_, ?_⟩
    · simp [Store.openKey, hidx, ← h.unused idx hidx]
    · simp [Store.openKey, hidx, ← howner]
  · simp [Store.openKey, hidx]

theorem openKey (key : CString) (idx : Slot) : Inv (d.openKey key idx) := by
  rcases h.openKey_fields key idx with ⟨hvalue, howner⟩
  by_cases hidx : d.keys idx = none
  · have hkeys : ∀ k, d.keys k ≠ none → useSlot d.keys key idx k ≠ none := by
      intro k hk
      rwa [useSlot_of_used hk]
    simp only [Store.openKey, hidx] at hvalue howner ⊢
    refine { h with
      owner_known := ?_, unused := ?_, owned := ?_, values := ?_ }
    · intro k hk
      rw [howner] at hk ⊢
      exact ⟨hkeys k (h.owner_known k hk).1, (h.owner_known k hk).2⟩
    · intro k hk
      rw [hvalue]
      exact h.unused k (by_contra fun hne => hkeys k hne hk)
    · rw [howner]
      exact h.owned
    · rw [howner, hvalue]
      exact h.values
  · simpa [Store.openKey, hidx] using h

theorem setOwner (hfree : d.owner idx = 0) (hused : d.keys idx ≠ none)
    (hknown : d.txns t ≠ none) : Inv (d.setOwner idx t) := by
  refine { h with owner_known := ?_, owned := ?_, values := ?_ }
  · -- the slot is in use and its owner a transaction
    intro k hk
    by_cases hki : k = idx
    · simpa [Store.setOwner, hki] using And.intro hused hknown
    · simpa [Store.setOwner, hki] using h.owner_known k (by simpa [Store.setOwner, hki] using hk)
  · intro u U (hU : d.txns u = some U) hactive k hk
    have hown := h.owned u U hU hactive k hk
    have hki : k ≠ idx := by
      rintro rfl
      -- a written slot is not free
      have hu := (h.id_range u (by simp [hU])).1
      omega
    simpa [Store.setOwner, hki] using hown
  · -- a free slot has its serial value, and keeps it under the new owner
    intro k hk
    rcases eq_or_ne k idx with rfl | hki
    · exact h.values k (by rw [hfree]; exact h.copying_zero)
    · simp only [Store.setOwner, update_of_ne hki] at hk
      exact h.values k hk

theorem release (hcopy : d.copying t = false)
    (hwrites : ∀ T, d.txns t = some T → T.status = .active → T.writes = []) :
    Inv (d.release idx t) := by
  unfold Store.release
  split_ifs with hown
  · refine { h with owner_known := ?_, owned := ?_, values := ?_ }
    · intro k hk
      by_cases hki : k = idx
      · simp [hki] at hk
      · simp only [update_of_ne hki] at hk ⊢
        exact h.owner_known k hk
    · intro u U hU hactive k hk
      have hown' := h.owned u U hU hactive k hk
      have hki : k ≠ idx := by
        rintro rfl
        -- an active transaction gives its slots back with an empty write list only
        have hut : u = t := hown'.symm.trans hown
        subst hut
        simp [hwrites U hU hactive, slots] at hk
      simpa [hki] using hown'
    · intro k hk
      rcases eq_or_ne k idx with rfl | hki
      · exact h.values k (by rw [hown]; exact hcopy)
      · simp only [update_of_ne hki] at hk
        exact h.values k hk
  · exact h

theorem setEdge {a b : Nat} {x : Bool} (hknown : x = true → d.txns a ≠ none ∧ d.txns b ≠ none) :
    Inv (d.setEdge a b x) := by
  unfold Store.setEdge
  split
  · exact h
  · refine { h with edge_known := ?_ }
    intro i j hij
    rcases eq_or_ne i a with rfl | hi
    · by_cases hj : j = b
      · subst hj
        exact hknown (by simpa using hij)
      · exact h.edge_known i j (by simpa [hj] using hij)
    · exact h.edge_known i j (by simpa [hi] using hij)

theorem clearEdges (t : Nat) : Inv (d.clearEdges t) := by
  refine { h with edge_known := ?_ }
  intro i j hij
  simp only [Store.clearEdges, Bool.if_false_left, Bool.and_eq_true] at hij
  exact h.edge_known i j hij.2

/-! ## Commits -/

theorem beginCopy {th : Nat} (hactive : Active d t) (hdriver : d.driver t = some th) :
    Inv (d.beginCopy t) := by
  refine { h with values := ?_, copying_active := ?_ }
  · -- nothing is claimed about the slots of `t` from now on
    intro k hk
    by_cases hkt : d.owner k = t
    · simp [Store.beginCopy, hkt] at hk
    · exact h.values k (by simpa [Store.beginCopy, hkt] using hk)
  · intro u hu
    rcases eq_or_ne u t with rfl | hut
    · exact ⟨hactive, th, hdriver⟩
    · exact h.copying_active u (by simpa [Store.beginCopy, hut] using hu)

/-- The copied slot belongs to a transaction that is being copied. -/
theorem copyEntry {w : WriteEntry} (hcopy : d.copying (d.owner w.keyIdx) = true) :
    Inv (d.copyEntry w) := by
  have hused : d.keys w.keyIdx ≠ none := by
    refine (h.owner_known _ ?_).1
    intro hzero
    rw [hzero, h.copying_zero] at hcopy
    cases hcopy
  refine { h with unused := ?_, values := ?_ }
  · intro k hk
    have hne : k ≠ w.keyIdx := fun e => hused (e ▸ hk)
    simpa [Store.copyEntry, hne] using h.unused k hk
  · intro k hk
    -- the slot that changes belongs to a transaction being copied
    have hne : k ≠ w.keyIdx := by
      rintro rfl
      have hk' : d.copying (d.owner w.keyIdx) = false := hk
      rw [hcopy] at hk'
      cases hk'
    simpa [Store.copyEntry, hne] using h.values k hk

/-- The commit counts once every slot that the transaction owns has its new value. -/
theorem logCommit (hT : d.txns t = some T) (hactive : T.status = .active) (hnew : ¬ Logged d t)
    (hvalues : ∀ k, d.owner k = t → d.value k = execute (serial d.log) T.writes k) :
    Inv (d.logCommit t T) := by
  refine { h with
    values := ?_, copying_active := ?_, log_status := ?_, log_distinct := ?_
    committed_logged := ?_ }
  · intro k hk
    by_cases hkt : d.owner k = t
    · exact hvalues k hkt
    · -- the other slots are not written by `t`, which does not own them
      have hnot : k ∉ slots T.writes := fun hmem => hkt (h.owned t T hT hactive k hmem)
      calc
        d.value k = serial d.log k := h.values k (by simpa [Store.logCommit, hkt] using hk)
        _ = execute (serial d.log) T.writes k := (execute_of_not_mem hnot).symm
  · intro u hu
    by_cases hut : u = t
    · simp [Store.logCommit, hut] at hu
    · exact h.copying_active u (by simpa [Store.logCommit, hut] using hu)
  · intro e he
    rcases mem_cons.1 he with rfl | he
    · exact ⟨T, hT, by simp [hactive]⟩
    · exact h.log_status e he
  · refine pairwise_cons.2 ⟨?_, h.log_distinct⟩
    intro e he heq
    exact hnew ⟨e, he, heq.symm⟩
  · intro u U hU hst
    rcases h.committed_logged u U hU hst with ⟨e, he, heu⟩
    exact ⟨e, mem_cons_of_mem _ he, heu⟩

end Inv

end SystemsLab.LockStore
