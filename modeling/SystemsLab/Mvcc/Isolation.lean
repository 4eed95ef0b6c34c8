import SystemsLab.Mvcc.Outline

/-!
# Snapshot reads, first committer wins, no deadlock

Consequences of the outline for whole runs.  A call takes at most one of `store_mtx`, `txns_mtx` and
`t->mtx`, then slots in ascending order, then `ts_mtx`, so the calls never wait in a circle.
-/

namespace SystemsLab.Mvcc

open Concurrent KeyStore PartialMap Function
open List hiding beq_eq_decide

/-! ## The log -/

variable {d : Store} {k : Slot} {r : ReadRecord} {a b : Commit} {x y : Value}
  {commits : List Commit} {p : Pc} {c : Config Mutex Store Pc} {startTs : Nat}

theorem Inv.commit_unique (h : Inv d) (ha : a ∈ d.commits)
    (hb : b ∈ d.commits) (hts : a.commitTs = b.commitTs) : a = b := by
  have hnodup : (d.commits.map Commit.commitTs).Nodup := by
    rw [List.Nodup, pairwise_map]
    exact h.clock.commits_desc.imp fun hlt => hlt.ne'
  exact inj_on_of_nodup_map hnodup ha hb hts

theorem value_unique {writes : List WriteEntry} (h : (slots writes).Nodup)
    (hx : ⟨k, x⟩ ∈ writes) (hy : ⟨k, y⟩ ∈ writes) : x = y := by
  have heq : (⟨k, x⟩ : WriteEntry) = ⟨k, y⟩ := inj_on_of_nodup_map h hx hy rfl
  exact (WriteEntry.mk.inj heq).2

/-- The value of slot `k` in the snapshot of a transaction that began at `startTs`. -/
def SnapshotValue (commits : List Commit) (startTs : Nat) (k : Slot) (x : Value) : Prop :=
  (∃ a, LatestBefore commits startTs k a ∧ ⟨k, x⟩ ∈ a.writes) ∨
    (x = CBuf.empty ∧ ∀ b ∈ commits, k ∈ slots b.writes → ¬ b.commitTs < startTs)

theorem SnapshotValue.unique (hinv : Inv d)
    (hx : SnapshotValue d.commits startTs k x) (hy : SnapshotValue d.commits startTs k y) :
    x = y := by
  rcases hx with ⟨a, ha, hax⟩ | ⟨rfl, hnone⟩
  · rcases hy with ⟨b, hb, hby⟩ | ⟨-, hnone⟩
    · have hts : a.commitTs = b.commitTs :=
        le_antisymm (hb.newest a ha.mem ha.writes ha.lt) (ha.newest b hb.mem hb.writes hb.lt)
      have hab := hinv.commit_unique ha.mem hb.mem hts
      subst hab
      exact value_unique (hinv.commits.nodup a ha.mem) hax hby
    · exact absurd ha.lt (hnone a ha.mem ha.writes)
  · rcases hy with ⟨b, hb, -⟩ | ⟨rfl, -⟩
    · exact absurd hb.lt (hnone b hb.mem hb.writes)
    · rfl

/-! ## Reads -/

/-- The read has found a version of `a` or a newer one. -/
def Sees (r : ReadRecord) (a : Commit) : Prop :=
  ∃ v, r.source = .version v ∧ a.commitTs ≤ v.commitTs

theorem SourceOk.snapshotValue (h : SourceOk commits startTs r) (hr : r.hadWritten = false) :
    SnapshotValue commits startTs r.slot r.result := by
  unfold SourceOk at h
  split at h
  · simp [hr] at h
  · rcases h with ⟨hres, a, ha, -, hmem⟩
    exact .inl ⟨a, ha, hres ▸ hmem⟩
  · exact .inr h

/-- On the slots of a commit, a read sees it exactly if it is older than the reader. -/
theorem SourceOk.sees_iff (h : SourceOk commits startTs r) (hr : r.hadWritten = false)
    (ha : a ∈ commits) (hk : r.slot ∈ slots a.writes) : Sees r a ↔ a.commitTs < startTs := by
  unfold SourceOk at h
  split at h
  · simp [hr] at h
  · rename_i v hv
    rcases h with ⟨-, b, hb, hts, -⟩
    constructor
    · rintro ⟨w, hw, hle⟩
      have hvw : v = w := Source.version.inj (hv.symm.trans hw)
      have hlt := hb.lt
      subst hvw
      omega
    · intro hlt
      exact ⟨v, hv, hts ▸ hb.newest a ha hk hlt⟩
  · rename_i hv
    constructor
    · rintro ⟨w, hw, -⟩
      rw [hv] at hw
      cases hw
    · exact fun hlt => absurd hlt (h.2 a ha hk)

theorem Acts.reads_mono {own : Mutex → Option Nat} {d' : Store} {p' : Pc}
    (h : Acts own d p d' p') : ∀ r ∈ d.reads, r ∈ d'.reads := by
  intro r hr
  cases h with
  | readOwn t idx T w _ _ => exact mem_cons_of_mem _ hr
  | readScan t idx T _ =>
    unfold Store.readVersions
    split <;> exact mem_cons_of_mem _ hr
  | _ => exact hr

theorem reads_run {as : List (Nat × Call)} {c' : Config Mutex Store Pc}
    (h : run code c as = some c') (hr : r ∈ c.data.reads) : r ∈ c'.data.reads := by
  have hmeets : Meets code (fun _ _ _ _ => True) c as :=
    meets_of_forall (fun _ _ _ _ => trivial) as c
  refine run_induction (J := fun c => r ∈ c.data.reads) ?_ hr hmeets h
  intro c c' th i hr _ hs
  rcases step_cases hs with ⟨m, mark, next, hc, -, rfl⟩ | ⟨m, next, -, rfl⟩ | ⟨f, d, p, hc, hf, rfl⟩
  · rcases locks_of_code hc with ⟨rfl, -⟩
    exact hr
  · exact hr
  · exact (acts_of_code hc hf).reads_mono r hr

/-! ## A stamped transaction commits -/

/-- Where the holder of `t->mtx` stands: either `t` has no timestamp, or the thread is between the
timestamp and the end of the commit. -/
theorem holder_cases {t : Nat} {T : Transaction} (hp : Local d p)
    (hmem : .txn t ∈ held p) (hT : d.txns t = some T) (hactive : T.status = .active) :
    t ∉ d.stamped ∨ (∃ commitTs rest locked, p = .stampUnlock t commitTs rest locked) ∨
      (∃ commitTs rest locked, p = .install t commitTs rest locked) ∨
      (∃ locked, p = .unlockKeys t locked false) ∨ p = .readOnlyTsUnlock t ∨
      p = .readOnlyFinish t := by
  cases p with
  | stampUnlock u commitTs rest locked =>
    obtain rfl : t = u := by simpa [held] using hmem
    exact .inr (.inl ⟨_, _, _, rfl⟩)
  | install u commitTs rest locked =>
    obtain rfl : t = u := by simpa [held] using hmem
    exact .inr (.inr (.inl ⟨_, _, _, rfl⟩))
  | unlockKeys u locked conflict =>
    obtain rfl : t = u := by simpa [held] using hmem
    cases conflict with
    | true =>
      rcases hp with ⟨-, -, -, -, -, hnot⟩
      exact .inl hnot
    | false => exact .inr (.inr (.inr (.inl ⟨_, rfl⟩)))
  | readOnlyTsUnlock u | readOnlyFinish u =>
    have hu : t = u := by simpa [held] using hmem
    simp [hu]
  | commitCheck u | abortCheck u =>
    obtain rfl : t = u := by simpa [held] using hmem
    exact .inl (hp.2 T hT hactive).unstamped
  | setAborted u =>
    obtain rfl : t = u := by simpa [held] using hmem
    exact .inl hp.2
  | txnUnlock u =>
    obtain rfl : t = u := by simpa [held] using hmem
    rcases hp with ⟨U, hU, hne⟩
    cases hU.symm.trans hT
    exact absurd hactive hne
  | readOnlyTsLock u | readOnlyTs u | lockKeys u todo locked =>
    obtain rfl : t = u := by simpa [held] using hmem
    rcases hp with ⟨U, -, hopen, -⟩
    exact .inl hopen.unstamped
  | validate u rest locked | stampLock u locked | stamp u locked =>
    obtain rfl : t = u := by simpa [held] using hmem
    rcases hp with ⟨U, h⟩
    exact .inl h.isOpen.unstamped
  | _ => simp [held] at hmem

/-- The threads can go on such that transaction `t` commits. -/
def CanCommit (c : Config Mutex Store Pc) (t : Nat) : Prop :=
  ∃ bs c', run code c bs = some c' ∧ ∃ T, c'.data.txns t = some T ∧ T.status = .committed

namespace CanCommit

variable {c : Config Mutex Store Pc} {t th : Nat}

theorem of_step {c' : Config Mutex Store Pc} (hs : step code c (th, .createTxn) = some c')
    (h : CanCommit c' t) : CanCommit c t := by
  rcases h with ⟨bs, c'', hrun, hT⟩
  exact ⟨(th, .createTxn) :: bs, c'', by simpa [run, hs] using hrun, hT⟩

theorem of_finish (hT : c.data.txns t ≠ none)
    (hp : c.pc th = .unlockKeys t [] false ∨ c.pc th = .readOnlyFinish t) : CanCommit c t := by
  rcases Option.ne_none_iff_exists'.1 hT with ⟨T, hT⟩
  have hs : step code c (th, .createTxn) = some ⟨c.owner,
      update c.pc th (.txnUnlock t), c.data.setStatus t T .committed⟩ := by
    rcases hp with hp | hp <;> simp [step, hp, code, hT]
  exact of_step hs ⟨[], _, rfl, _, setTxn_self _ _ _, rfl⟩

variable {locked : List Slot}

theorem of_unlockKeys (hT : c.data.txns t ≠ none) (hp : c.pc th = .unlockKeys t locked false) :
    CanCommit c t := by
  induction locked generalizing c with
  | nil => exact of_finish hT (.inl hp)
  | cons k locked ih =>
    have hs : step code c (th, .createTxn) = some ⟨update c.owner (.key k) none,
        update c.pc th (.unlockKeys t locked false), c.data⟩ := by simp [step, hp, code]
    exact of_step hs (ih hT (by simp))

theorem of_install {commitTs : Nat} {rest : List WriteEntry}
    (hT : c.data.txns t ≠ none) (hp : c.pc th = .install t commitTs rest locked) :
    CanCommit c t := by
  induction rest generalizing c with
  | nil =>
    rcases Option.ne_none_iff_exists'.1 hT with ⟨T, hT⟩
    have hs : step code c (th, .createTxn) = some ⟨c.owner,
        update c.pc th (.unlockKeys t locked false), c.data.freeWrites t T⟩ := by
          simp [step, hp, code, hT]
    exact of_step hs (of_unlockKeys (update_ne_none (by simp [hT])) (update_self ..))
  | cons w rest ih =>
    have hs : step code c (th, .createTxn) = some ⟨c.owner,
        update c.pc th (.install t commitTs rest locked),
        c.data.install commitTs w⟩ := by simp [step, hp, code]
    exact of_step hs (ih hT (by simp))

/-- A logged commit is finished or can be: after the timestamp the committer waits for nobody. -/
theorem of_logged (hO : outline.Holds c) (ha : a ∈ c.data.commits) : CanCommit c a.txn := by
  rcases hO.inv.commits.txn a ha with ⟨T, hT, hne, -⟩
  have hstamped := hO.inv.commits.stamped a ha
  have hsome : c.data.txns a.txn ≠ none := by simp [hT]
  cases hst : T.status with
  | committed => exact ⟨[], c, rfl, T, hT, hst⟩
  | aborted => exact absurd hst hne
  | active =>
    cases ho : c.owner (.txn a.txn) with
    | none => exact absurd hstamped (hO.res _ ho T hT hst).unstamped
    | some th =>
      have hmem : Mutex.txn a.txn ∈ held (c.pc th) := (hO.owns _ th).1 ho
      rcases holder_cases (hO.loc th) hmem hT hst with hnot | ⟨commitTs, rest, locked, hp⟩ |
        ⟨commitTs, rest, locked, hp⟩ | ⟨locked, hp⟩ | hp | hp
      · exact absurd hstamped hnot
      · have hs : step code c (th, .createTxn) = some ⟨update c.owner .ts none,
            update c.pc th (.install a.txn commitTs rest locked), c.data⟩ := by
              simp [step, hp, code]
        exact of_step hs (of_install hsome (update_self ..))
      · exact of_install hsome hp
      · exact of_unlockKeys hsome hp
      · have hs : step code c (th, .createTxn) = some ⟨update c.owner .ts none,
            update c.pc th (.readOnlyFinish a.txn), c.data⟩ := by simp [step, hp, code]
        exact of_step hs (of_finish hsome (.inr (update_self ..)))
      · exact of_finish hsome (.inr hp)

end CanCommit

/-! ## Snapshot reads -/

/-- What the reads made so far have returned, judged by the commits of a later state `c`. -/
structure SnapshotReads (reads : List ReadRecord) (c : Config Mutex Store Pc) : Prop where
  /-- A transaction that has not written the slot reads the latest commit before its start. -/
  snapshot : ∀ r ∈ reads, r.hadWritten = false → ∃ T, c.data.txns r.txn = some T ∧
      SnapshotValue c.data.commits T.startTs r.slot r.result
  /-- Repeated reads agree. -/
  repeatable : ∀ r ∈ reads, ∀ r' ∈ reads, r.hadWritten = false → r'.hadWritten = false →
    r.txn = r'.txn → r.slot = r'.slot → r.result = r'.result
  /-- No version of an aborted or a later transaction is seen. -/
  source : ∀ r ∈ reads, ∀ v, r.source = .version v →
    ∃ a ∈ c.data.commits, a.commitTs = v.commitTs ∧ ⟨r.slot, r.result⟩ ∈ a.writes ∧
      ∃ T U, c.data.txns r.txn = some T ∧ c.data.txns a.txn = some U ∧
        a.commitTs < T.startTs ∧ U.status ≠ .aborted
  /-- A transaction sees all of a commit or nothing of it. -/
  atomic : ∀ a ∈ c.data.commits, ∀ r ∈ reads, ∀ r' ∈ reads,
    r.hadWritten = false → r'.hadWritten = false → r.txn = r'.txn →
      r.slot ∈ slots a.writes → r'.slot ∈ slots a.writes → (Sees r a ↔ Sees r' a)
  /-- Every logged commit has not aborted and can be carried through, and every committed writer is
  logged. -/
  commits : ∀ a ∈ c.data.commits, CanCommit c a.txn ∧
    ∃ U, c.data.txns a.txn = some U ∧ U.status ≠ .aborted
  logged : ∀ t T k, c.data.txns t = some T → T.status = .committed → (t, k) ∈ c.data.wrote →
    ∃ a ∈ c.data.commits, a.txn = t ∧ k ∈ slots a.writes

/-- The reads of every run, against the commits of every continuation of it. -/
theorem snapshot_reads (as bs : List (Nat × Call)) (c c' : Config Mutex Store Pc)
    (h : run code init as = some c) (h' : run code c bs = some c') :
    SnapshotReads c.data.reads c' := by
  have hrun : run code init (as ++ bs) = some c' := run_append.2 ⟨c, h, h'⟩
  have hO := outline_run hrun
  have hinv : Inv c'.data := hO.inv
  have hread : ∀ r ∈ c.data.reads, ReadOk c'.data r := fun r hr => hinv.reads r (reads_run h' hr)
  refine ⟨?_, ?_, ?_, ?_, ?_, ?_⟩
  · intro r hr hw
    rcases hread r hr with ⟨T, hT, hok⟩
    exact ⟨T, hT, hok.snapshotValue hw⟩
  · intro r hr r' hr' hw hw' htxn hslot
    rcases hread r hr with ⟨T, hT, hok⟩
    rcases hread r' hr' with ⟨T', hT', hok'⟩
    rw [← htxn, hT] at hT'
    cases hT'
    have hval := hok.snapshotValue hw
    rw [hslot] at hval
    exact hval.unique hinv (hok'.snapshotValue hw')
  · intro r hr v hv
    rcases hread r hr with ⟨T, hT, hok⟩
    simp only [SourceOk, hv] at hok
    rcases hok with ⟨hres, a, ha, hts, hmem⟩
    rcases hinv.commits.txn a ha.mem with ⟨U, hU, hne, -⟩
    exact ⟨a, ha.mem, hts, hres ▸ hmem, T, U, hT, hU, ha.lt, hne⟩
  · intro a ha r hr r' hr' hw hw' htxn hk hk'
    rcases hread r hr with ⟨T, hT, hok⟩
    rcases hread r' hr' with ⟨T', hT', hok'⟩
    rw [← htxn, hT] at hT'
    cases hT'
    exact (hok.sees_iff hw ha hk).trans (hok'.sees_iff hw' ha hk').symm
  · intro a ha
    rcases hinv.commits.txn a ha with ⟨U, hU, hne, -⟩
    exact ⟨CanCommit.of_logged hO ha, U, hU, hne⟩
  · intro t T k hT hst hw
    rcases hinv.txns.committed_logged t T hT hst k hw with ⟨a, ha, rfl⟩
    exact ⟨a, ha, rfl, (hinv.commits.wrote a ha k).1 hw⟩

/-- Transaction `1` writes the key; transaction `2` begins; `1` commits; `2` reads the key; then
transaction `3` begins and reads it. -/
def readAround : List (Nat × Call) :=
  List.flatten
    [List.replicate 8 (0, .createTxn), List.replicate 5 (0, .txnWrite 1 bracketKey valueX),
      List.replicate 8 (1, .createTxn),
      List.replicate 15 (0, .txnCommit 1),
      List.replicate 8 (1, .txnRead 2 bracketKey),
      List.replicate 8 (2, .createTxn),
      List.replicate 8 (2, .txnRead 3 bracketKey)]

theorem snapshot_reads_readAround : ∃ c, run code init readAround = some c ∧
      c.data.reads.map (fun r => (r.txn, r.result.str)) = [(3, valueX), (2, CString.empty)] ∧
      SnapshotReads c.data.reads c := by
  obtain ⟨c, hc, hreads⟩ : ∃ c, run code init readAround = some c ∧
      c.data.reads.map (fun r => (r.txn, r.result.str)) = [(3, valueX), (2, CString.empty)] :=
    exists_of_run _ (by decide +kernel)
  exact ⟨c, hc, hreads, snapshot_reads readAround [] c c hc rfl⟩

/-! ## First committer wins -/

/-- A logged commit has its version in every slot it wrote, unless it is still installing. -/
theorem installed_or_active (hO : outline.Holds c) (hb : b ∈ c.data.commits)
    (hk : k ∈ slots b.writes) :
    (∃ v ∈ c.data.versions k, v.commitTs = b.commitTs) ∨
    ∃ T, c.data.txns b.txn = some T ∧ T.status = .active := by
  have hinv : Inv c.data := hO.inv
  cases ho : c.owner (.key k) with
  | none => exact .inl (hO.res _ ho b hb hk)
  | some th =>
    have hmem : Mutex.key k ∈ held (c.pc th) := (hO.owns _ th).1 ho
    have hloc : Local c.data (c.pc th) := hO.loc th
    -- the holder of the slot either has it installed or is the one installer
    have hinstalling : ∀ {t commitTs rest locked},
        (∃ T a, Installing c.data t commitTs rest locked T a) → k ∈ locked →
          (∃ v ∈ c.data.versions k, v.commitTs = b.commitTs) ∨
            ∃ T, c.data.txns b.txn = some T ∧ T.status = .active := by
      rintro t commitTs rest locked ⟨T, a, h⟩ hkl
      rcases h.installed k hkl b hb hk with hv | ⟨hts, -⟩
      · exact .inl hv
      · have hab := hinv.commit_unique hb h.logged (hts.trans h.commit.2.symm)
        rw [hab, h.commit.1]
        exact .inr ⟨T, h.txn, h.active⟩
    generalize c.pc th = p at hmem hloc
    cases p with
    | readScan t idx | readUnlock idx =>
      obtain rfl : k = idx := by simpa [held] using hmem
      exact .inl (hloc b hb hk)
    | lockKeys t todo locked =>
      rcases hloc with ⟨T, -, -, -, hinst⟩
      exact .inl (hinst k (by simpa [held] using hmem) b hb hk)
    | validate t rest locked | stampLock t locked | stamp t locked =>
      rcases hloc with ⟨T, h⟩
      exact .inl (h.installed k (by simpa [held] using hmem) b hb hk)
    | stampUnlock t commitTs rest locked | install t commitTs rest locked =>
      exact hinstalling hloc (by simpa [held] using hmem)
    | unlockKeys t locked conflict =>
      rcases hloc with ⟨T, -, -, -, hinst, -⟩
      exact .inl (hinst k (by simpa [held] using hmem) b hb hk)
    | _ => simp [held] at hmem

theorem Descending.countP_eq_one {versions : List Version} (h : Descending versions) {v : Version}
    (hv : v ∈ versions) : versions.countP (fun w => w.commitTs = v.commitTs) = 1 := by
  have hnodup : (versions.map Version.commitTs).Nodup := by
    rw [List.Nodup, pairwise_map]
    exact h.imp fun hlt => hlt.ne'
  have hcount := count_eq_one_of_mem hnodup (mem_map_of_mem hv)
  simpa [count, Function.comp_def, beq_eq_decide] using hcount

/-- Two transactions that have drawn a `commit_ts` and wrote one slot do not overlap; every version
list is strictly descending, has exactly one version of each committed writer of the slot, with the
value that it wrote, and none of an aborted transaction. -/
theorem first_committer_wins (as : List (Nat × Call)) (c : Config Mutex Store Pc)
    (h : run code init as = some c) :
    (∀ a ∈ c.data.commits, ∀ b ∈ c.data.commits, a.txn ≠ b.txn →
      ∀ k, (a.txn, k) ∈ c.data.wrote → (b.txn, k) ∈ c.data.wrote → a.commitTs < b.commitTs →
        ∃ T, c.data.txns b.txn = some T ∧ a.commitTs < T.startTs) ∧
          (∀ k, Descending (c.data.versions k)) ∧
    (∀ t T k, c.data.txns t = some T → T.status = .committed → (t, k) ∈ c.data.wrote →
      ∃ a ∈ c.data.commits, a.txn = t ∧
        (c.data.versions k).countP (fun v => v.commitTs = a.commitTs) = 1 ∧
        ∀ v ∈ c.data.versions k, v.commitTs = a.commitTs → ⟨k, v.value⟩ ∈ a.writes) ∧
    (∀ k, ∀ v ∈ c.data.versions k, ∃ a ∈ c.data.commits, a.commitTs = v.commitTs ∧
      (a.txn, k) ∈ c.data.wrote ∧ ∃ T, c.data.txns a.txn = some T ∧ T.status ≠ .aborted) := by
  have hO := outline_run h
  have hinv : Inv c.data := hO.inv
  refine ⟨?_, hinv.versions.descending, ?_, ?_⟩
  · intro a ha b hb _ k hka hkb hlt
    rcases hinv.commits.txn b hb with ⟨T, hT, -⟩
    have hka' := (hinv.commits.wrote a ha k).1 hka
    have hkb' := (hinv.commits.wrote b hb k).1 hkb
    exact ⟨T, hT, hinv.commits.firstCommitter a ha b hb hlt k hka' hkb' T hT⟩
  · intro t T k hT hst hw
    rcases hinv.txns.committed_logged t T hT hst k hw with ⟨a, ha, rfl⟩
    have hk := (hinv.commits.wrote a ha k).1 hw
    refine ⟨a, ha, rfl, ?_, ?_⟩
    · rcases installed_or_active hO ha hk with ⟨v, hv, hts⟩ | ⟨U, hU, hactive⟩
      · rw [← hts]
        exact (hinv.versions.descending k).countP_eq_one hv
      · rw [Option.some.inj (hU.symm.trans hT), hst] at hactive
        cases hactive
    · intro v hv hts
      rcases hinv.versions.logged k v hv with ⟨b, hb, hbts, hmem⟩
      rwa [hinv.commit_unique ha hb (hts.symm.trans hbts.symm)]
  · intro k v hv
    rcases hinv.versions.logged k v hv with ⟨a, ha, hts, hmem⟩
    rcases hinv.commits.txn a ha with ⟨T, hT, hne, -⟩
    exact ⟨a, ha, hts, (hinv.commits.wrote a ha k).2 (mem_slots hmem), T, hT, hne⟩

/-- Transactions `1` and `2` overlap and both write the key; `1` commits first. -/
def overlapping : List (Nat × Call) :=
  List.flatten
    [List.replicate 8 (0, .createTxn), List.replicate 8 (1, .createTxn),
      List.replicate 5 (0, .txnWrite 1 bracketKey valueX),
      List.replicate 5 (1, .txnWrite 2 bracketKey valueX),
      List.replicate 15 (0, .txnCommit 1),
      List.replicate 9 (1, .txnCommit 2)]

theorem first_committer_wins_overlapping : ∃ c, run code init overlapping = some c ∧
      (c.data.txns 1).map Transaction.status = some .committed ∧
      (c.data.txns 2).map Transaction.status = some .aborted ∧ ∀ k,
      Descending (c.data.versions k) := by
  obtain ⟨c, hc, h1, h2⟩ : ∃ c, run code init overlapping = some c ∧
      (c.data.txns 1).map Transaction.status = some .committed ∧
      (c.data.txns 2).map Transaction.status = some .aborted :=
    exists_of_run _ (by decide +kernel)
  exact ⟨c, hc, h1, h2, (first_committer_wins overlapping c hc).2.1⟩

/-! ## Deadlocks -/

/-- The tables and the transactions are at the bottom, the timestamp is above all slots. -/
def rank : Mutex → Nat
  | .store | .txns | .txn _ => 0
  | .key idx => 1 + idx
  | .ts => 1 + MAX_KEYS

theorem rank_le (m : Mutex) : rank m ≤ 1 + MAX_KEYS := by
  cases m with
  | key idx => exact Nat.add_le_add_left idx.isLt.le 1
  | ts => exact Nat.le_refl _
  | _ => exact Nat.zero_le _

theorem rank_key_lt_ts (idx : Slot) : rank (.key idx) < rank .ts := Nat.add_lt_add_left idx.isLt 1

theorem rank_lt_of_lock {next : Pc} {m : Mutex} (h : Locks p m next)
    (hp : Local d p) : ∀ m' ∈ held p, rank m' < rank m := by
  intro m' hm'
  cases h with
  | createTs id =>
    rw [mem_singleton.1 hm']
    decide
  | readOnlyTs t =>
    rw [mem_singleton.1 hm']
    exact Nat.succ_pos _
  | key t k todo locked =>
    rcases hp with ⟨T, -, -, horder, -⟩
    rcases mem_cons.1 hm' with rfl | hm'
    · exact Nat.lt_add_right _ Nat.one_pos
    · -- the slots already locked come before `k` in the sorted list
      rcases mem_map.1 hm' with ⟨x, hx, rfl⟩
      have hsorted := lockWriteKeysSorted_strict T.writes
      rw [← horder] at hsorted
      have hlt : x < k := (pairwise_append.1 hsorted).2.2 x hx k mem_cons_self
      exact Nat.add_lt_add_left hlt 1
  | stamp t locked =>
    rcases mem_cons.1 hm' with rfl | hm'
    · exact Nat.succ_pos _
    · rcases mem_map.1 hm' with ⟨x, -, rfl⟩
      exact rank_key_lt_ts x
  | _ => cases hm'

/-- `lock_write_keys_sorted` locks exactly the slots of the write list, each once and in ascending
order, and in no reachable state is every unfinished call blocked by another unfinished one. -/
theorem commits_never_deadlock (as : List (Nat × Call)) (c : Config Mutex Store Pc)
    (h : run code init as = some c) :
    (∀ writes, (lockWriteKeysSorted writes).Pairwise (· < ·) ∧ ∀ k, k ∈ lockWriteKeysSorted writes ↔
      k ∈ slots writes) ∧
    (∀ th t todo locked, c.pc th = .lockKeys t todo locked →
      ∃ T, c.data.txns t = some T ∧ locked ++ todo = lockWriteKeysSorted T.writes) ∧
    (∀ th t rest locked, c.pc th = .validate t rest locked →
      ∃ T, c.data.txns t = some T ∧ locked = lockWriteKeysSorted T.writes ∧
        ∀ k, k ∈ locked ↔ c.owner (.key k) = some th) ∧
    ¬ ((∃ th, c.pc th ≠ .idle) ∧ ∀ th, c.pc th ≠ .idle →
      ∃ u, u ≠ th ∧ c.pc u ≠ .idle ∧ BlockedBy code c th u) := by
  have hO := outline_run h
  refine ⟨?_, ?_, ?_, ?_⟩
  · exact fun writes => ⟨lockWriteKeysSorted_strict writes, fun _ => mem_lockWriteKeysSorted⟩
  · intro th t todo locked hp
    have hloc : Local c.data (c.pc th) := hO.loc th
    rw [hp] at hloc
    rcases hloc with ⟨T, hT, -, horder, -⟩
    exact ⟨T, hT, horder⟩
  · intro th t rest locked hp
    have hloc : Local c.data (c.pc th) := hO.loc th
    rw [hp] at hloc
    rcases hloc with ⟨T, hv⟩
    refine ⟨T, hv.txn, hv.order, ?_⟩
    intro k
    rw [hO.owns]
    simp [outline, hp, held]
  · rintro ⟨⟨th, hth⟩, hall⟩
    have hblocked : ∀ v, c.pc v ≠ .idle → ¬ ∀ u, ¬ BlockedBy code c v u := by
      intro v hv hfree
      rcases hall v hv with ⟨u, -, -, hb⟩
      exact hfree u hb
    have horder : ∀ th m mark next, code (c.pc th) = .lock m mark next →
        ∀ m' ∈ outline.held (c.pc th), rank m' < rank m :=
      fun th m mark next hc => rank_lt_of_lock (locks_of_code hc).2 (hO.loc th)
    rcases hO.exists_unblocked rank _ rank_le horder th with hfree | ⟨v, hv, hfree⟩
    · exact hblocked th hth hfree
    · refine hblocked v ?_ hfree
      intro hidle
      exact hv (by simp [outline, hidle, held])

/-- Two committers of one slot: the second waits for the first, which can go on. -/
def twoCommitters : List (Nat × Call) :=
  List.flatten
    [List.replicate 8 (0, .createTxn), List.replicate 8 (1, .createTxn),
      List.replicate 5 (0, .txnWrite 1 bracketKey CString.empty),
      List.replicate 5 (1, .txnWrite 2 bracketKey CString.empty),
      List.replicate 4 (0, .txnCommit 1),
      List.replicate 3 (1, .txnCommit 2)]

theorem commits_never_deadlock_twoCommitters :
    ∃ c, run code init twoCommitters = some c ∧ BlockedBy code c 1 0 ∧
      ¬ ∀ th, c.pc th ≠ .idle → ∃ u, u ≠ th ∧ c.pc u ≠ .idle ∧ BlockedBy code c th u := by
  obtain ⟨c, hc, hpc, howner, hidle⟩ : ∃ c, run code init twoCommitters = some c ∧
      c.pc 1 = .lockKeys 2 [0] [] ∧ c.owner (.key 0) = some 0 ∧ c.pc 0 ≠ .idle :=
    exists_of_run _ (by decide +kernel)
  refine ⟨c, hc, ⟨.key 0, noMark, _, by rw [hpc]; rfl, howner⟩, ?_⟩
  intro hall
  exact (commits_never_deadlock twoCommitters c hc).2.2.2 ⟨⟨0, hidle⟩, hall⟩

/-! ## The clock -/

/-- The clock stays far below `ULONG_MAX`: every transaction draws at most two timestamps. -/
theorem clock_never_wraps (as : List (Nat × Call)) (hrun : run code init as = some c) :
    c.data.globalTs < 2 ^ 64 := by
  have h : Inv c.data := (outline_run hrun).inv
  have hsub : c.data.stamped ⊆ range c.data.nextTxnId := by
    intro t ht
    rcases Option.ne_none_iff_exists'.1 (h.txns.stamped_txn t ht) with ⟨T, hT⟩
    exact mem_range.2 (h.txns.id_lt t T hT)
  have hlen : c.data.stamped.length ≤ c.data.nextTxnId := by
    simpa using (h.txns.stamped_nodup.subperm hsub).length_le
  have hclock := h.clock.globalTs_le
  have hids : c.data.nextTxnId ≤ 256 := h.txns.nextTxnId_le
  omega

theorem clock_never_wraps_twoCommitters :
    ∃ c, run code init twoCommitters = some c ∧ c.data.globalTs < 2 ^ 64 := by
  rcases Option.isSome_iff_exists.1 (by decide +kernel : (run code init twoCommitters).isSome)
    with ⟨c, hrun⟩
  exact ⟨c, hrun, clock_never_wraps twoCommitters hrun⟩

end SystemsLab.Mvcc
