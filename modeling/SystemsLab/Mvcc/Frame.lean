import SystemsLab.Mvcc.Invariant

/-!
# Assertions of the multi-version store, and what keeps them true

`ke->mtx` guards "every commit of the slot that has a timestamp is installed", and `t->mtx` guards
"an active transaction has drawn no `commit_ts`".  A committer holds both kinds of mutex from before
it draws its timestamp until its last version is installed.
-/

namespace SystemsLab.Mvcc

open Concurrent KeyStore PartialMap

/-! ## Assertions -/

def held : Pc → List Mutex
  | .createCheck | .createFail | .createTsLock _ | .createPublish _ _ | .createUnlock => [.txns]
  | .createTs _ | .createTsUnlock _ _ => [.ts, .txns]
  | .readTable _ _ | .readTableUnlock _ _ | .writeTable _ _ _ | .writeTableUnlock _ _ _ => [.store]
  | .readScan _ idx | .readUnlock idx => [.key idx]
  | .commitCheck t | .readOnlyTsLock t | .readOnlyFinish t | .setAborted t | .txnUnlock t
  | .abortCheck t => [.txn t]
  | .readOnlyTs t | .readOnlyTsUnlock t => [.ts, .txn t]
  | .lockKeys t _ locked | .validate t _ locked | .stampLock t locked | .install t _ _ locked
  | .unlockKeys t locked _ => .txn t :: locked.map .key
  | .stamp t locked | .stampUnlock t _ _ locked => .ts :: .txn t :: locked.map .key
  | _ => []

/-- An active transaction between two calls: no `commit_ts` yet, and everything that it wrote is in
its write list. -/
structure Open (d : Store) (t : Nat) (T : Transaction) : Prop where
  active : T.status = .active
  unstamped : t ∉ d.stamped
  wrote : ∀ k, (t, k) ∈ d.wrote ↔ k ∈ slots T.writes

/-- The resource of `t->mtx`. -/
def OpenIfActive (d : Store) (t : Nat) : Prop :=
  ∀ T, d.txns t = some T → T.status = .active → Open d t T

/-- A committer on its way to the timestamp.  It holds `locked`; the entries that are not in `rest`
have passed validation. -/
structure Validating (d : Store) (t : Nat) (rest : List WriteEntry) (locked : List Slot)
    (T : Transaction) : Prop where
  txn : d.txns t = some T
  isOpen : Open d t T
  order : locked = lockWriteKeysSorted T.writes
  installed : ∀ k ∈ locked, Installed d k
  fresh : ∀ w ∈ T.writes, w ∈ rest ∨ ∀ v ∈ d.versions w.keyIdx, v.commitTs ≤ T.startTs

/-- A committer after its timestamp, with the entries of `rest` still to install. -/
structure Installing (d : Store) (t commitTs : Nat) (rest : List WriteEntry) (locked : List Slot)
    (T : Transaction) (a : Commit) : Prop where
  txn : d.txns t = some T
  active : T.status = .active
  logged : a ∈ d.commits
  commit : a.txn = t ∧ a.commitTs = commitTs
  nodup : locked.Nodup
  rest_nodup : (slots rest).Nodup
  rest_mem : ∀ w ∈ rest, w ∈ a.writes ∧ w.keyIdx ∈ locked
  newer : ∀ k ∈ slots rest, ∀ v ∈ d.versions k, v.commitTs < commitTs
  installed : ∀ k ∈ locked, ∀ b ∈ d.commits, k ∈ slots b.writes →
    (∃ v ∈ d.versions k, v.commitTs = b.commitTs) ∨ (b.commitTs = commitTs ∧ k ∈ slots rest)

theorem Validating.mem_locked {d : Store} {t : Nat} {rest : List WriteEntry} {locked : List Slot}
    {T : Transaction}
    (h : Validating d t rest locked T) {k : Slot} (hk : k ∈ slots T.writes) : k ∈ locked := by
  rw [h.order]
  exact mem_lockWriteKeysSorted.2 hk

/-- The assertion of a thread about the shared data. -/
def Local (d : Store) : Pc → Prop
  | .createTsLock id | .createTs id =>
    d.txns id = none ∧ id < d.nextTxnId ∧ d.globalTs < d.nextTxnId + d.stamped.length
  | .createTsUnlock id startTs | .createPublish id startTs =>
    d.txns id = none ∧ id < d.nextTxnId ∧ startTs < d.globalTs ∧
      ∀ a ∈ d.commits, a.commitTs ≠ startTs
  | .readScan _ idx | .readUnlock idx => Installed d idx
  | .writeTableUnlock _ idx _ | .writeInsert _ idx _ => d.keys idx ≠ none
  | .commitLock t | .abortLock t => d.txns t ≠ none
  | .commitCheck t | .abortCheck t => d.txns t ≠ none ∧ OpenIfActive d t
  | .readOnlyTsLock t | .readOnlyTs t => ∃ T, d.txns t = some T ∧ Open d t T ∧ T.writes = []
  | .readOnlyTsUnlock t | .readOnlyFinish t => d.txns t ≠ none ∧ ∀ k, (t, k) ∉ d.wrote
  | .lockKeys t todo locked => ∃ T, d.txns t = some T ∧ Open d t T ∧
      locked ++ todo = lockWriteKeysSorted T.writes ∧ ∀ k ∈ locked, Installed d k
  | .validate t rest locked => ∃ T, Validating d t rest locked T
  | .stampLock t locked | .stamp t locked => ∃ T, Validating d t [] locked T
  | .stampUnlock t commitTs rest locked | .install t commitTs rest locked =>
    ∃ T a, Installing d t commitTs rest locked T a
  | .unlockKeys t locked conflict => ∃ T, d.txns t = some T ∧ T.status = .active ∧
      locked.Nodup ∧ (∀ k ∈ locked, Installed d k) ∧
        if conflict then t ∉ d.stamped else ∃ a ∈ d.commits, a.txn = t
  | .setAborted t => d.txns t ≠ none ∧ t ∉ d.stamped
  | .txnUnlock t => ∃ T, d.txns t = some T ∧ T.status ≠ .active
  | _ => True

def Resource (m : Mutex) (d : Store) : Prop :=
  match m with
  | .txn t => OpenIfActive d t
  | .key k => Installed d k
  | _ => True

/-! ## What the holder of a mutex may rely on -/

/-- The data may go from `d` to `d'` while somebody else holds the mutexes of `q`. -/
structure Frame (q : Mutex → Prop) (d d' : Store) : Prop where
  used : ∀ k, d.keys k ≠ none → d'.keys k ≠ none
  known : ∀ t, d.txns t ≠ none → d'.txns t ≠ none
  new : ∀ t T, d.txns t = none → d'.txns t = some T → T.writes = []
  txn : ∀ t, q (.txn t) → ∀ T, d.txns t = some T → d'.txns t = some T
  stamped : ∀ t, q (.txn t) → (t ∈ d'.stamped ↔ t ∈ d.stamped)
  wrote : ∀ t, q (.txn t) → ∀ k, (t, k) ∈ d'.wrote ↔ (t, k) ∈ d.wrote
  versions : ∀ k, q (.key k) → d'.versions k = d.versions k
  commits : ∀ a ∈ d.commits, a ∈ d'.commits
  commits_new : ∀ a ∈ d'.commits,
    a ∈ d.commits ∨ d.globalTs ≤ a.commitTs ∧ ∀ k ∈ slots a.writes, ¬ q (.key k)
  creating : q .txns → d'.nextTxnId = d.nextTxnId ∧ (∀ t, d.txns t = none → d'.txns t = none) ∧
    d'.globalTs + d.stamped.length = d.globalTs + d'.stamped.length
  clock : d.globalTs ≤ d'.globalTs

namespace Frame

variable {q : Mutex → Prop} {d d' : Store}

theorem refl (q : Mutex → Prop) (d : Store) : Frame q d d where
  used := fun _ h => h
  known := fun _ h => h
  new t T hnone hT := by simp [hnone] at hT
  txn := fun _ _ _ h => h
  stamped := fun _ _ => Iff.rfl
  wrote := fun _ _ _ => Iff.rfl
  versions := fun _ _ => rfl
  commits := fun _ h => h
  commits_new := fun _ h => .inl h
  creating := fun _ => ⟨rfl, fun _ h => h, rfl⟩
  clock := le_refl _

section

variable (f : Frame q d d')

include f

theorem installed {k : Slot} (hk : q (.key k)) (h : Installed d k) : Installed d' k := by
  intro a ha hmem
  rcases f.commits_new a ha with ha | ⟨-, hnot⟩
  · simpa [f.versions k hk] using h a ha hmem
  · -- a commit drawn meanwhile has locked its slots
    exact absurd hk (hnot k hmem)

variable {t : Nat} {T : Transaction}

theorem isOpen (ht : q (.txn t)) (h : Open d t T) : Open d' t T where
  active := h.active
  unstamped := fun hs => h.unstamped ((f.stamped t ht).1 hs)
  wrote := fun k => (f.wrote t ht k).trans (h.wrote k)

theorem openIfActive (hinv : Inv d) (ht : q (.txn t)) (h : OpenIfActive d t) :
    OpenIfActive d' t := by
  intro T' hT' hactive
  cases hT : d.txns t with
  | none =>
    -- `create_txn` has just published it: nobody has mentioned it before
    refine ⟨hactive, ?_, ?_⟩
    · intro hs
      exact hinv.txns.stamped_txn t ((f.stamped t ht).1 hs) hT
    · intro k
      have hno : (t, k) ∉ d.wrote := fun hw => (hinv.txns.wrote_used t k hw).2 hT
      simp [f.wrote t ht k, hno, f.new t T' hT hT', slots]
  | some T =>
    cases hT'.symm.trans (f.txn t ht T hT)
    exact f.isOpen ht (h T' hT hactive)

theorem validating {rest : List WriteEntry} {locked : List Slot}
    (ht : q (.txn t)) (hkeys : ∀ k ∈ locked, q (.key k))
    (h : Validating d t rest locked T) : Validating d' t rest locked T where
  txn := f.txn t ht T h.txn
  isOpen := f.isOpen ht h.isOpen
  order := h.order
  installed := fun k hk => f.installed (hkeys k hk) (h.installed k hk)
  fresh w hw := by
    rw [f.versions _ (hkeys _ (h.mem_locked (mem_slots hw)))]
    exact h.fresh w hw

theorem installing {commitTs : Nat} {rest : List WriteEntry} {locked : List Slot} {a : Commit}
    (ht : q (.txn t))
    (hkeys : ∀ k ∈ locked, q (.key k)) (h : Installing d t commitTs rest locked T a) :
    Installing d' t commitTs rest locked T a :=
  { h with
    txn := f.txn t ht T h.txn
    logged := f.commits a h.logged
    newer k hk := by
      rcases List.mem_map.1 hk with ⟨w, hw, rfl⟩
      rw [f.versions _ (hkeys _ (h.rest_mem w hw).2)]
      exact h.newer _ hk
    installed k hk b hb hmem := by
      rcases f.commits_new b hb with hb | ⟨-, hnot⟩
      · rw [f.versions k (hkeys k hk)]
        exact h.installed k hk b hb hmem
      · exact absurd (hkeys k hk) (hnot k hmem) }

theorem preserves_local (hinv : Inv d) {p : Pc} (hq : ∀ m ∈ held p, q m) (h : Local d p) :
    Local d' p := by
  cases p with
  -- `create_txn`: the identifier is reserved as long as `txns_mtx` is held
  | createTsLock id | createTs id =>
    rcases f.creating (hq .txns (by simp [held])) with ⟨hid, hnone, hclock⟩
    exact ⟨hnone id h.1, hid ▸ h.2.1, by have := h.2.2; omega⟩
  | createTsUnlock id startTs | createPublish id startTs =>
    rcases f.creating (hq .txns (by simp [held])) with ⟨hid, hnone, -⟩
    refine ⟨hnone id h.1, hid ▸ h.2.1, h.2.2.1.trans_le f.clock, ?_⟩
    -- later commits draw later timestamps
    intro a ha
    rcases f.commits_new a ha with ha | ⟨hle, -⟩
    · exact h.2.2.2 a ha
    · exact (h.2.2.1.trans_le hle).ne'
  | readScan t idx => exact f.installed (hq _ (by simp [held])) h
  | readUnlock idx => exact f.installed (hq _ (by simp [held])) h
  | writeTableUnlock t idx value | writeInsert t idx value => exact f.used idx h
  | commitLock t | abortLock t => exact f.known t h
  | commitCheck t | abortCheck t =>
    exact ⟨f.known t h.1, f.openIfActive hinv (hq _ (by simp [held])) h.2⟩
  -- from here on `t->mtx` is held, so nobody else touches the transaction
  | readOnlyTsLock t | readOnlyTs t =>
    rcases h with ⟨T, hT, hopen, hw⟩
    have ht : q (.txn t) := hq _ (by simp [held])
    exact ⟨T, f.txn t ht T hT, f.isOpen ht hopen, hw⟩
  | readOnlyTsUnlock t | readOnlyFinish t =>
    exact ⟨f.known t h.1, fun k hk => h.2 k ((f.wrote t (hq _ (by simp [held])) k).1 hk)⟩
  | lockKeys t todo locked =>
    rcases h with ⟨T, hT, hopen, horder, hinst⟩
    have ht : q (.txn t) := hq _ (by simp [held])
    refine ⟨T, f.txn t ht T hT, f.isOpen ht hopen, horder, ?_⟩
    exact fun k hk => f.installed (hq _ (by simp [held, hk])) (hinst k hk)
  | validate t rest locked =>
    rcases h with ⟨T, h⟩
    exact ⟨T, f.validating (hq _ (by simp [held])) (fun k hk => hq _ (by simp [held, hk])) h⟩
  | stampLock t locked | stamp t locked =>
    rcases h with ⟨T, h⟩
    exact ⟨T, f.validating (hq _ (by simp [held])) (fun k hk => hq _ (by simp [held, hk])) h⟩
  | stampUnlock t commitTs rest locked | install t commitTs rest locked =>
    rcases h with ⟨T, a, h⟩
    exact ⟨T, a, f.installing (hq _ (by simp [held])) (fun k hk => hq _ (by simp [held, hk])) h⟩
  | unlockKeys t locked conflict =>
    rcases h with ⟨T, hT, hactive, hnodup, hinst, hend⟩
    have ht : q (.txn t) := hq _ (by simp [held])
    refine ⟨T, f.txn t ht T hT, hactive, hnodup, ?_, ?_⟩
    · exact fun k hk => f.installed (hq _ (by simp [held, hk])) (hinst k hk)
    · cases conflict with
      | true => exact fun hs => hend ((f.stamped t ht).1 hs)
      | false =>
        rcases hend with ⟨a, ha, hat⟩
        exact ⟨a, f.commits a ha, hat⟩
  | setAborted t =>
    exact ⟨f.known t h.1, fun hs => h.2 ((f.stamped t (hq _ (by simp [held]))).1 hs)⟩
  | txnUnlock t =>
    rcases h with ⟨T, hT, hne⟩
    exact ⟨T, f.txn t (hq _ (by simp [held])) T hT, hne⟩
  | _ => trivial

end

/-! ### Frames of the accesses -/

theorem setTxn {T' : Transaction} (hT : d.txns t = some T) (hq : ¬ q (.txn t)) :
    Frame q d (d.setTxn t T') :=
  { Frame.refl q d with
    known := fun u hu => update_ne_none hu
    new u U hnone hU := by
      rcases update_cases hU with ⟨rfl, -⟩ | ⟨-, hU⟩
      · simp [hnone] at hT
      · simp [hnone] at hU
    txn u hu U hU := by
      have hne : u ≠ t := fun e => hq (e ▸ hu)
      exact (Function.update_of_ne hne ..).trans hU
    creating := by
      -- a change of a transaction publishes none
      refine fun _ => ⟨rfl, fun u hu => ?_, rfl⟩
      have hne : u ≠ t := by
        rintro rfl
        simp [hu] at hT
      exact (Function.update_of_ne hne ..).trans hu }

theorem write (hT : d.txns t = some T) (hq : ¬ q (.txn t))
    (idx : Slot) (value : CString) : Frame q d (d.write t T idx value) :=
  { Frame.setTxn hT hq with
    wrote u hu k := by
      have hne : u ≠ t := fun e => hq (e ▸ hu)
      simp [Store.write, hne] }

theorem publish {id : Nat} (hnone : d.txns id = none) (hq : ¬ q .txns) (startTs : Nat) :
    Frame q d (d.publish id startTs) :=
  { Frame.refl q d with
    known := fun u hu => update_ne_none hu
    new u U hu hU := by
      rcases update_cases hU with ⟨-, rfl⟩ | ⟨-, hU⟩
      · rfl
      · simp [hu] at hU
    txn u _ U hU := by
      have hne : u ≠ id := by
        rintro rfl
        simp [hnone] at hU
      exact (Function.update_of_ne hne ..).trans hU
    creating := fun hc => absurd hc hq }

theorem openKey (hinv : Inv d) (key : CString) (idx : Slot) : Frame q d (d.openKey key idx) :=
  { Frame.refl q d with
    used k hk := by simpa [Store.openKey, useSlot_of_used hk] using hk
    versions := fun k _ => by rw [(hinv.openKey key idx).1] }

theorem readVersions (t : Nat) (T : Transaction) (idx : Slot) :
    Frame q d (d.readVersions t T idx) := by
  unfold Store.readVersions
  split <;> exact { Frame.refl q d with }

theorem stampReadOnly (hq : ¬ q (.txn t)) : Frame q d (d.stampReadOnly t) :=
  { Frame.refl q d with
    stamped u hu := by
      have hne : u ≠ t := fun e => hq (e ▸ hu)
      simp [Store.stampReadOnly, hne]
    creating := by
      -- the clock and the stamps advance together
      refine fun _ => ⟨rfl, fun _ hu => hu, ?_⟩
      simp only [Store.stampReadOnly, Store.tick, List.length_cons]
      omega
    clock := Nat.le_succ _ }

theorem stamp (hq : ¬ q (.txn t)) (hkeys : ∀ k ∈ slots T.writes, ¬ q (.key k)) :
    Frame q d (d.stamp t T) :=
  { Frame.stampReadOnly hq with
    commits := fun a ha => List.mem_cons_of_mem _ ha
    commits_new a ha := by
      rcases List.mem_cons.1 ha with rfl | ha
      · -- the new commit, on slots that its thread has locked
        exact .inr ⟨le_refl _, hkeys⟩
      · exact .inl ha }

theorem install {w : WriteEntry} (hq : ¬ q (.key w.keyIdx)) (commitTs : Nat) :
    Frame q d (d.install commitTs w) :=
  { Frame.refl q d with
    versions k hk := by
      have hne : k ≠ w.keyIdx := fun e => hq (e ▸ hk)
      simp [Store.install, hne] }

end Frame

end SystemsLab.Mvcc
