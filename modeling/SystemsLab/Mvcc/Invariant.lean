import Mathlib.Data.List.Range
import SystemsLab.Data.PartialMap
import SystemsLab.Mvcc.Model

/-!
# What every access to the store preserves

* `ReadOk` — a read has returned the value of its snapshot;
* `Inv` — the invariant of the shared data, in groups, and one preservation lemma for each
  operation of `Store`.

What an operation needs beyond `Inv` (a lock's resource, the thread's own assertion) is a hypothesis
of its lemma; `Outline.lean` supplies it.
-/

namespace SystemsLab.Mvcc

open KeyStore PartialMap List

/-! ## The loops -/

def Descending (versions : List Version) : Prop :=
  versions.Pairwise fun v w => w.commitTs < v.commitTs

variable {versions : List Version} {writes : List WriteEntry} {k idx : Slot} {d : Store}
  {t u startTs : Nat} {T : Transaction}

/-- The scan of a descending list finds the newest version not above `startTs`. -/
theorem scanVersions_some {v : Version}
    (hd : Descending versions) (h : scanVersions versions startTs = some v) :
    v ∈ versions ∧ v.commitTs ≤ startTs ∧ ∀ w ∈ versions, w.commitTs ≤ startTs →
      w.commitTs ≤ v.commitTs := by
  induction versions with
  | nil => cases h
  | cons u vs ih =>
    rcases pairwise_cons.1 hd with ⟨hu, htail⟩
    by_cases hnew : u.commitTs > startTs
    · simp only [scanVersions, hnew] at h
      rcases ih htail h with ⟨hmem, hle, hmax⟩
      exact ⟨mem_cons_of_mem _ hmem, hle,
        forall_mem_cons.2 ⟨fun hle => absurd hle (not_le.2 hnew), hmax⟩⟩
    · simp only [scanVersions, hnew, if_false, Option.some.injEq] at h
      subst h
      exact ⟨mem_cons_self, not_lt.1 hnew,
        forall_mem_cons.2 ⟨fun _ => le_rfl, fun w hw _ => (hu w hw).le⟩⟩

theorem scanVersions_none
    (h : scanVersions versions startTs = none) : ∀ w ∈ versions, startTs < w.commitTs := by
  induction versions with
  | nil =>
    nofun
  | cons u vs ih =>
    by_cases hnew : u.commitTs > startTs
    · simp only [scanVersions, hnew] at h
      exact forall_mem_cons.2 ⟨hnew, ih h⟩
    · simp [scanVersions, hnew] at h

theorem headNewer_false (hd : Descending versions)
    (h : headNewer versions startTs = false) : ∀ v ∈ versions, v.commitTs ≤ startTs := by
  cases versions with
  | nil =>
    nofun
  | cons head vs =>
    have hhead : head.commitTs ≤ startTs := by simpa [headNewer] using h
    exact forall_mem_cons.2 ⟨hhead, fun v hv => ((pairwise_cons.1 hd).1 v hv).le.trans hhead⟩

variable {present : Slot → Bool} {commits : List Commit} {a b : Commit} {w : WriteEntry}

theorem mem_collectKeys {keys : List Slot} :
    k ∈ collectKeys writes present keys ↔ k ∈ keys ∨ (k ∈ slots writes ∧ present k = false) := by
  induction writes generalizing present keys with
  | nil => simp [collectKeys, slots]
  | cons w ws ih =>
    by_cases hw : present w.keyIdx
    · -- the slot is already there, so the entry adds nothing
      simp only [collectKeys, hw, if_true, ih, slots]
      grind
    · simp only [collectKeys, if_neg hw, ih, slots, map_cons, mem_cons]
      rcases eq_or_ne k w.keyIdx with rfl | hk
      · simp [hw]
      · simp [hk]

theorem nodup_collectKeys {keys : List Slot} (hnodup : keys.Nodup)
    (hpresent : ∀ k ∈ keys, present k = true) :
    (collectKeys writes present keys).Nodup := by
  induction writes generalizing present keys with
  | nil => exact hnodup
  | cons w ws ih =>
    by_cases hw : present w.keyIdx
    · simp only [collectKeys, hw]
      exact ih hnodup hpresent
    · simp only [collectKeys, if_neg hw]
      have hnew : w.keyIdx ∉ keys := fun hmem => hw (hpresent _ hmem)
      refine ih ?_ ?_
      · exact hnodup.append (nodup_singleton _) (by simpa using hnew)
      · intro k hk
        by_cases hkw : k = w.keyIdx
        · simp [hkw]
        · have hmem : k ∈ keys := by simpa [hkw] using hk
          simp [hkw, hpresent k hmem]

theorem mem_lockWriteKeysSorted : k ∈ lockWriteKeysSorted writes ↔ k ∈ slots writes := by
  simp [lockWriteKeysSorted, ExchangeSort.mem_exchangeSort, mem_collectKeys]

theorem lockWriteKeysSorted_strict (writes : List WriteEntry) :
    (lockWriteKeysSorted writes).Pairwise (· < ·) :=
  ExchangeSort.exchangeSort_strict (nodup_collectKeys nodup_nil (by simp))

theorem lockWriteKeysSorted_nodup (writes : List WriteEntry) : (lockWriteKeysSorted writes).Nodup :=
  (lockWriteKeysSorted_strict writes).imp fun h => ne_of_lt h

/-! ## The invariant -/

/-- `a` is the commit of slot `k` with the largest `commit_ts` below `startTs`. -/
structure LatestBefore (commits : List Commit) (startTs : Nat) (k : Slot) (a : Commit) : Prop where
  mem : a ∈ commits
  writes : k ∈ slots a.writes
  lt : a.commitTs < startTs
  newest : ∀ b ∈ commits, k ∈ slots b.writes → b.commitTs < startTs → b.commitTs ≤ a.commitTs

/-- What a read of slot `k` that began at `startTs` may have returned. -/
def SourceOk (commits : List Commit) (startTs : Nat) (r : ReadRecord) : Prop :=
  match r.source with
  | .ownWrite => r.hadWritten = true
  | .version v => r.result = v.value ∧
      ∃ a, LatestBefore commits startTs r.slot a ∧ a.commitTs = v.commitTs ∧
        ⟨r.slot, v.value⟩ ∈ a.writes
  | .nothing => r.result = CBuf.empty ∧
      ∀ b ∈ commits, r.slot ∈ slots b.writes → ¬ b.commitTs < startTs

def ReadOk (d : Store) (r : ReadRecord) : Prop :=
  ∃ T, d.txns r.txn = some T ∧ SourceOk d.commits T.startTs r

structure VersionsInv (d : Store) : Prop where
  descending : ∀ k, Descending (d.versions k)
  logged : ∀ k, ∀ v ∈ d.versions k,
    ∃ a ∈ d.commits, a.commitTs = v.commitTs ∧ ⟨k, v.value⟩ ∈ a.writes
  unused : ∀ k, d.keys k = none → d.versions k = []

structure ClockInv (d : Store) : Prop where
  commits_lt : ∀ a ∈ d.commits, a.commitTs < d.globalTs
  commits_desc : d.commits.Pairwise fun a b => b.commitTs < a.commitTs
  start_lt : ∀ t T, d.txns t = some T → T.startTs < d.globalTs
  start_ne : ∀ t T, d.txns t = some T → ∀ a ∈ d.commits, a.commitTs ≠ T.startTs
  globalTs_le : d.globalTs ≤ d.nextTxnId + d.stamped.length

structure TxnsInv (d : Store) : Prop where
  id_lt : ∀ t T, d.txns t = some T → t < d.nextTxnId
  nextTxnId_le : d.nextTxnId ≤ MAX_TXNS
  writes_nodup : ∀ t T, d.txns t = some T → (slots T.writes).Nodup
  writes_wrote : ∀ t T, d.txns t = some T → ∀ k ∈ slots T.writes, (t, k) ∈ d.wrote
  wrote_used : ∀ t k, (t, k) ∈ d.wrote → d.keys k ≠ none ∧ d.txns t ≠ none
  stamped_txn : ∀ t ∈ d.stamped, d.txns t ≠ none
  stamped_nodup : d.stamped.Nodup
  committed_logged : ∀ t T, d.txns t = some T → T.status = .committed →
    ∀ k, (t, k) ∈ d.wrote → ∃ a ∈ d.commits, a.txn = t

structure CommitsInv (d : Store) : Prop where
  nodup : ∀ a ∈ d.commits, (slots a.writes).Nodup
  txn : ∀ a ∈ d.commits, ∃ T, d.txns a.txn = some T ∧ T.status ≠ .aborted ∧ T.startTs < a.commitTs
  wrote : ∀ a ∈ d.commits, ∀ k, (a.txn, k) ∈ d.wrote ↔ k ∈ slots a.writes
  stamped : ∀ a ∈ d.commits, a.txn ∈ d.stamped
  distinct : d.commits.Pairwise fun a b => a.txn ≠ b.txn
  /-- First committer wins. -/
  firstCommitter : ∀ a ∈ d.commits, ∀ b ∈ d.commits, a.commitTs < b.commitTs →
    ∀ k ∈ slots a.writes, k ∈ slots b.writes → ∀ T, d.txns b.txn = some T → a.commitTs < T.startTs

structure Inv (d : Store) : Prop where
  versions : VersionsInv d
  clock : ClockInv d
  txns : TxnsInv d
  commits : CommitsInv d
  reads : ∀ r ∈ d.reads, ReadOk d r

theorem inv_initialStore : Inv initialStore where
  versions := ⟨fun _ => Pairwise.nil, by simp [initialStore], fun _ _ => rfl⟩
  clock := ⟨by simp [initialStore], Pairwise.nil, by simp [initialStore],
    by simp [initialStore], le_refl _⟩
  txns := ⟨by simp [initialStore], by decide, by simp [initialStore], by simp [initialStore],
    by simp [initialStore], by simp [initialStore], nodup_nil, by simp [initialStore]⟩
  commits := ⟨by simp [initialStore], by simp [initialStore], by simp [initialStore],
    by simp [initialStore], Pairwise.nil, by simp [initialStore]⟩
  reads := by simp [initialStore]

/-! ## Reads keep their meaning -/

theorem LatestBefore.cons (h : LatestBefore commits startTs k a) (hb : startTs ≤ b.commitTs) :
    LatestBefore (b :: commits) startTs k a where
  mem := mem_cons_of_mem _ h.mem
  writes := h.writes
  lt := h.lt
  newest := forall_mem_cons.2 ⟨fun _ hlt => absurd hlt (not_lt.2 hb), h.newest⟩

/-- A commit that begins its life after the read's transaction does not touch the snapshot. -/
theorem SourceOk.cons {r : ReadRecord} (h : SourceOk commits startTs r)
    (hb : startTs ≤ b.commitTs) :
    SourceOk (b :: commits) startTs r := by
  unfold SourceOk at h ⊢
  split
  · rename_i hs
    simpa [hs] using h
  · rename_i v hs
    simp only [hs] at h
    rcases h with ⟨hres, a, ha, hts, hmem⟩
    exact ⟨hres, a, ha.cons hb, hts, hmem⟩
  · rename_i hs
    simp only [hs] at h
    exact ⟨h.1, forall_mem_cons.2 ⟨fun _ => not_lt.2 hb, h.2⟩⟩

/-! ## Slots, identifiers and the clock -/

theorem Inv.openKey (h : Inv d) (key : CString) (idx : Slot) :
    (d.openKey key idx).versions = d.versions ∧ Inv (d.openKey key idx) := by
  -- a new slot has no versions yet, so clearing its list changes nothing
  have hvers : (d.openKey key idx).versions = d.versions := by
    by_cases hidx : d.keys idx = none
    · simp [Store.openKey, ← h.versions.unused idx hidx]
    · simp [Store.openKey, hidx]
  have hkeys : ∀ k, d.keys k ≠ none → (d.openKey key idx).keys k ≠ none := by
    intro k hk
    simpa [Store.openKey, useSlot_of_used hk] using hk
  refine ⟨hvers, ?_, ⟨h.clock.1, h.clock.2, h.clock.3, h.clock.4, h.clock.5⟩, ?_,
    ⟨h.commits.1, h.commits.2, h.commits.3, h.commits.4, h.commits.5, h.commits.6⟩, h.reads⟩
  · refine ⟨?_, ?_, ?_⟩
    · simpa [hvers] using h.versions.descending
    · rw [hvers]
      exact h.versions.logged
    · intro k hk
      rw [hvers]
      exact h.versions.unused k (by_contra fun hne => hkeys k hne hk)
  · exact { h.txns with
      wrote_used := fun t k hw => (h.txns.wrote_used t k hw).imp_left (hkeys k) }

theorem Inv.takeId (h : Inv d) (hlt : d.nextTxnId < MAX_TXNS) : Inv d.takeId :=
  { h with
    versions := { h.versions with }
    clock := { h.clock with
      globalTs_le := by
        have := h.clock.globalTs_le
        simp only [Store.takeId]
        omega }
    txns := { h.txns with
      id_lt := fun t T hT => Nat.lt_succ_of_lt (h.txns.id_lt t T hT)
      nextTxnId_le := hlt }
    commits := { h.commits with } }

/-- Every timestamp drawn so far lies below the clock, so moving the clock is harmless as long as
it is accounted for. -/
theorem ClockInv.advance (h : ClockInv d) {stamped : List Nat}
    (hle : d.globalTs + 1 ≤ d.nextTxnId + stamped.length) :
    ClockInv { d.tick with stamped := stamped } where
  commits_lt := fun a ha => Nat.lt_succ_of_lt (h.commits_lt a ha)
  commits_desc := h.commits_desc
  start_lt := fun t T hT => Nat.lt_succ_of_lt (h.start_lt t T hT)
  start_ne := h.start_ne
  globalTs_le := hle

theorem Inv.tick (h : Inv d) (hlt : d.globalTs < d.nextTxnId + d.stamped.length) : Inv d.tick :=
  { h with
    versions := { h.versions with }
    clock := h.clock.advance hlt
    txns := { h.txns with }
    commits := { h.commits with } }

theorem Inv.stampReadOnly (h : Inv d) (ht : d.txns t ≠ none) (hnew : t ∉ d.stamped) :
    Inv (d.stampReadOnly t) :=
  { h with
    versions := { h.versions with }
    clock := h.clock.advance (by
      have := h.clock.globalTs_le
      simp only [length_cons]
      omega)
    txns := { h.txns with
      stamped_txn := forall_mem_cons.2 ⟨ht, h.txns.stamped_txn⟩
      stamped_nodup := nodup_cons.2 ⟨hnew, h.txns.stamped_nodup⟩ }
    commits := { h.commits with
      stamped := fun a ha => mem_cons_of_mem _ (h.commits.stamped a ha) } }

/-! ## Transactions -/

@[simp] theorem setTxn_self (d : Store) (t : Nat) (T : Transaction) :
    (d.setTxn t T).txns t = some T :=
  Function.update_self ..

variable (h : Inv d)

include h

/-- A transaction may change its status and its write list as long as an abort is not that of a
stamped transaction and a commit is that of a logged one. -/
theorem Inv.setTxn {T' : Transaction} (hT : d.txns t = some T) (hstart : T'.startTs = T.startTs)
    (hnodup : (slots T'.writes).Nodup) (hwrote : ∀ k ∈ slots T'.writes, (t, k) ∈ d.wrote)
    (habort : T'.status = .aborted → t ∉ d.stamped)
    (hcommit : T'.status = .committed → ∀ k, (t, k) ∈ d.wrote → ∃ a ∈ d.commits, a.txn = t) :
    Inv (d.setTxn t T') := by
  refine ⟨{ h.versions with }, ?clock, ?txns, ?commits, ?reads⟩
  case clock =>
    exact { h.clock with
      start_lt := forall_update (hstart ▸ h.clock.start_lt t T hT) h.clock.start_lt
      start_ne := forall_update (hstart ▸ h.clock.start_ne t T hT) h.clock.start_ne }
  case txns =>
    exact { h.txns with
      id_lt := forall_update (h.txns.id_lt t T hT) h.txns.id_lt
      writes_nodup := forall_update hnodup h.txns.writes_nodup
      writes_wrote := forall_update hwrote h.txns.writes_wrote
      wrote_used := fun u k hw => (h.txns.wrote_used u k hw).imp_right update_ne_none
      stamped_txn := fun u hu => update_ne_none (h.txns.stamped_txn u hu)
      committed_logged := forall_update hcommit h.txns.committed_logged }
  case commits =>
    refine { h.commits with txn := fun a ha => ?_, firstCommitter :=
      fun a ha b hb hlt k hka hkb U hU => ?_ }
    · refine exists_update (fun hat => ⟨fun hst => habort hst (hat ▸ h.commits.stamped a ha), ?_⟩)
        (h.commits.txn a ha)
      rcases h.commits.txn a ha with ⟨V, hV, -, hlt⟩
      cases hT.symm.trans (hat ▸ hV)
      exact hstart ▸ hlt
    · have hfirst := h.commits.firstCommitter a ha b hb hlt k hka hkb
      rcases update_cases hU with ⟨rfl, rfl⟩ | ⟨-, hU⟩
      · exact hstart ▸ hfirst T hT
      · exact hfirst U hU
  case reads =>
    intro r hr
    refine exists_update (fun hrt => ?_) (h.reads r hr)
    rcases h.reads r hr with ⟨V, hV, hok⟩
    cases hT.symm.trans (hrt ▸ hV)
    exact hstart ▸ hok

/-- `create_txn` makes its transaction known: nothing has mentioned the identifier before. -/
theorem Inv.publish {id : Nat} (hnone : d.txns id = none)
    (hid : id < d.nextTxnId) (hlt : startTs < d.globalTs)
    (hne : ∀ a ∈ d.commits, a.commitTs ≠ startTs) : Inv (d.publish id startTs) := by
  refine ⟨{ h.versions with }, ?clock, ?txns, ?commits, ?reads⟩
  case clock =>
    exact { h.clock with
      start_lt := forall_update hlt h.clock.start_lt
      start_ne := forall_update hne h.clock.start_ne }
  case txns =>
    exact { h.txns with
      id_lt := forall_update hid h.txns.id_lt
      writes_nodup := forall_update nodup_nil h.txns.writes_nodup
      writes_wrote := forall_update (by simp [slots]) h.txns.writes_wrote
      wrote_used := fun u k hw => (h.txns.wrote_used u k hw).imp_right update_ne_none
      stamped_txn := fun u hu => update_ne_none (h.txns.stamped_txn u hu)
      committed_logged := forall_update (by simp) h.txns.committed_logged }
  case commits =>
    refine { h.commits with
      txn := fun a ha => exists_update_new hnone (h.commits.txn a ha)
      firstCommitter := fun a ha b hb hts k hka hkb U hU => ?_ }
    rcases update_cases hU with ⟨hbt, -⟩ | ⟨-, hU⟩
    · rcases h.commits.txn b hb with ⟨V, hV, -⟩
      rw [hbt, hnone] at hV
      cases hV
    · exact h.commits.firstCommitter a ha b hb hts k hka hkb U hU
  case reads => exact fun r hr => exists_update_new hnone (h.reads r hr)

theorem Inv.freeWrites (hT : d.txns t = some T) (hactive : T.status = .active) :
    Inv (d.freeWrites t T) :=
  h.setTxn hT rfl nodup_nil (by simp [slots]) (by simp [hactive]) (by simp [hactive])

theorem Inv.setAborted (hT : d.txns t = some T) (hnot : t ∉ d.stamped) :
    Inv (d.setStatus t T .aborted) :=
  h.setTxn hT rfl (h.txns.writes_nodup t T hT) (h.txns.writes_wrote t T hT)
    (fun _ => hnot) (by simp)

theorem Inv.setCommitted (hT : d.txns t = some T)
    (hlogged : ∀ k, (t, k) ∈ d.wrote → ∃ a ∈ d.commits, a.txn = t) :
    Inv (d.setStatus t T .committed) :=
  h.setTxn hT rfl (h.txns.writes_nodup t T hT) (h.txns.writes_wrote t T hT) (by simp)
    (fun _ => hlogged)

/-- `txn_write`, by a transaction that has not drawn its `commit_ts`. -/
theorem Inv.write (hT : d.txns t = some T) (hactive : T.status = .active) (hnot : t ∉ d.stamped)
    (hused : d.keys idx ≠ none) (value : CString) : Inv (d.write t T idx value) := by
  -- first the history, then the write list
  have hhist : Inv { d with wrote := (t, idx) :: d.wrote } :=
    { h with
      versions := { h.versions with }
      clock := { h.clock with }
      txns := { h.txns with
        writes_wrote := fun u U hU k hk =>
          mem_cons_of_mem _ (h.txns.writes_wrote u U hU k hk)
        wrote_used u k hw := by
          rcases mem_cons.1 hw with heq | hw
          · cases heq
            exact ⟨hused, by simp [hT]⟩
          · exact h.txns.wrote_used u k hw
        committed_logged u U hU hst k hw := by
          rcases mem_cons.1 hw with heq | hw
          · cases heq
            rw [hT] at hU
            cases hU
            simp [hactive] at hst
          · exact h.txns.committed_logged u U hU hst k hw }
      commits := { h.commits with
        wrote a ha k := by
          have hne : a.txn ≠ t := fun e => hnot (e ▸ h.commits.stamped a ha)
          simp [hne, h.commits.wrote a ha k] } }
  refine hhist.setTxn hT rfl (nodup_slots_putWrite (h.txns.writes_nodup t T hT) _ _) ?_
    (by simp [hactive]) (by simp [hactive])
  intro k hk
  rcases mem_slots_putWrite.1 hk with rfl | hk
  · exact mem_cons_self
  · exact mem_cons_of_mem _ (h.txns.writes_wrote t T hT k hk)

/-! ## Reads -/

/-- Every logged commit of the slot has its version. -/
def Installed (d : Store) (k : Slot) : Prop :=
  ∀ a ∈ d.commits, k ∈ slots a.writes → ∃ v ∈ d.versions k, v.commitTs = a.commitTs

theorem Inv.recordRead {result : Value}
    {source : Source} (hok : ReadOk d ⟨t, idx, result, source, (t, idx) ∈ d.wrote⟩) :
    Inv (d.recordRead t idx result source) :=
  { h with
    versions := { h.versions with }
    clock := { h.clock with }
    txns := { h.txns with }
    commits := { h.commits with }
    reads := forall_mem_cons.2 ⟨hok, h.reads⟩ }

theorem Inv.readLocal (hT : d.txns t = some T) (hw : findLocalWrite T.writes idx = some w) :
    Inv (d.recordRead t idx w.value .ownWrite) := by
  rcases findLocalWrite_eq_some hw with ⟨hmem, hidx⟩
  have hwrote : (t, idx) ∈ d.wrote := h.txns.writes_wrote t T hT idx (hidx ▸ mem_slots hmem)
  exact h.recordRead ⟨T, hT, by simpa [SourceOk] using hwrote⟩

theorem Inv.readVersions (hT : d.txns t = some T) (hinst : Installed d idx) :
    Inv (d.readVersions t T idx) := by
  unfold Store.readVersions
  split
  · rename_i hscan
    refine h.recordRead ⟨T, hT, rfl, ?_⟩
    intro b hb hk hlt
    rcases hinst b hb hk with ⟨w, hw, hts⟩
    have := scanVersions_none hscan w hw
    omega
  · rename_i v hscan
    rcases scanVersions_some (h.versions.descending idx) hscan with ⟨hv, hle, hmax⟩
    rcases h.versions.logged idx v hv with ⟨a, ha, hts, hmem⟩
    -- timestamps are drawn once, so not above means below
    have hne := h.clock.start_ne t T hT a ha
    refine h.recordRead ⟨T, hT, rfl, a, ⟨ha, mem_slots hmem, ?_, ?_⟩, hts, hmem⟩
    · omega
    · intro b hb hk hlt
      rcases hinst b hb hk with ⟨w, hw, hwts⟩
      have := hmax w hw (by omega)
      omega

/-! ## Commits -/

/-- The commit point: the transaction's slots are validated and no commit of them is under way. -/
theorem Inv.stamp (hT : d.txns t = some T) (hactive : T.status = .active) (hnot : t ∉ d.stamped)
    (hwrote : ∀ k, (t, k) ∈ d.wrote ↔ k ∈ slots T.writes)
    (hfresh : ∀ k ∈ slots T.writes, ∀ v ∈ d.versions k, v.commitTs ≤ T.startTs)
    (hinst : ∀ k ∈ slots T.writes, Installed d k) : Inv (d.stamp t T) := by
  have hstart := h.clock.start_lt t T hT
  have hro : Inv (d.stampReadOnly t) := h.stampReadOnly (by simp [hT]) hnot
  refine ⟨?versions, ?clock, ?txns, ?commits, ?reads⟩
  case versions =>
    refine { h.versions with logged := ?_ }
    intro k v hv
    rcases h.versions.logged k v hv with ⟨a, ha, hrest⟩
    exact ⟨a, mem_cons_of_mem _ ha, hrest⟩
  case clock =>
    exact { hro.clock with
      commits_lt := forall_mem_cons.2 ⟨Nat.lt_succ_self _, hro.clock.commits_lt⟩
      commits_desc := pairwise_cons.2 ⟨h.clock.commits_lt, h.clock.commits_desc⟩
      start_ne := fun u U hU =>
        forall_mem_cons.2 ⟨(h.clock.start_lt u U hU).ne', h.clock.start_ne u U hU⟩ }
  case txns =>
    refine { hro.txns with committed_logged := ?_ }
    intro u U hU hst k hw
    rcases h.txns.committed_logged u U hU hst k hw with ⟨a, ha, hat⟩
    exact ⟨a, mem_cons_of_mem _ ha, hat⟩
  case commits =>
    refine ⟨forall_mem_cons.2 ⟨h.txns.writes_nodup t T hT, h.commits.nodup⟩,
      forall_mem_cons.2 ⟨⟨T, hT, by simp [hactive], hstart⟩, h.commits.txn⟩,
      forall_mem_cons.2 ⟨hwrote, h.commits.wrote⟩,
        forall_mem_cons.2 ⟨mem_cons_self, hro.commits.stamped⟩,
      pairwise_cons.2 ⟨fun a ha heq => ?_, h.commits.distinct⟩, ?_⟩
    · have hmem := h.commits.stamped a ha
      rw [← heq] at hmem
      exact hnot hmem
    · intro a ha b hb hlt k hka hkb U hU
      rcases mem_cons.1 hb with rfl | hb
      · rcases mem_cons.1 ha with rfl | ha
        · exact hlt.false.elim
        · -- an older commit of a common slot has its version, and validation has seen it
          rw [show U = T from Option.some.inj (hU.symm.trans hT)]
          rcases hinst k hkb a ha hka with ⟨v, hv, hts⟩
          have hle := hfresh k hkb v hv
          have hne := h.clock.start_ne t T hT a ha
          omega
      · rcases mem_cons.1 ha with rfl | ha
        · exact absurd (h.clock.commits_lt b hb) (not_lt.2 hlt.le)
        · exact h.commits.firstCommitter a ha b hb hlt k hka hkb U hU
  case reads =>
    intro r hr
    rcases h.reads r hr with ⟨V, hV, hok⟩
    exact ⟨V, hV, hok.cons (h.clock.start_lt _ V hV).le⟩

theorem Inv.install (ha : a ∈ d.commits)
    (hw : w ∈ a.writes) (hnewer : ∀ v ∈ d.versions w.keyIdx, v.commitTs < a.commitTs) :
    Inv (d.install a.commitTs w) := by
  have hused : d.keys w.keyIdx ≠ none :=
    (h.txns.wrote_used a.txn _ ((h.commits.wrote a ha _).2 (mem_slots hw))).1
  refine ⟨⟨?_, ?_, ?_⟩, { h.clock with }, { h.txns with }, { h.commits with }, h.reads⟩
  · intro k
    rcases eq_or_ne k w.keyIdx with rfl | hk
    · simpa [Store.install, Descending] using And.intro hnewer (h.versions.descending w.keyIdx)
    · simpa [Store.install, hk] using h.versions.descending k
  · intro k v hv
    rcases eq_or_ne k w.keyIdx with rfl | hk
    · simp only [Store.install, Function.update_self, CBuf.copy_str, mem_cons] at hv
      rcases hv with rfl | hv
      · exact ⟨a, ha, rfl, hw⟩
      · exact h.versions.logged _ v hv
    · simp only [Store.install, Function.update_of_ne hk] at hv
      exact h.versions.logged k v hv
  · intro k hk
    have hne : k ≠ w.keyIdx := fun e => hused (e ▸ hk)
    simpa [Store.install, hne] using h.versions.unused k hk

end SystemsLab.Mvcc
