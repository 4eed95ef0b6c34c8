import SystemsLab.LockStore.Invariant

/-!
# Assertions of the locking store, and what keeps them true

`t->mtx` guards "an active transaction has not committed".  A slot's ownership needs no guard of its
own: only the thread that drives a transaction takes slots for it, and only its commit or its abort
gives them back.
-/

namespace SystemsLab.LockStore

open Concurrent KeyStore PartialMap

/-! ## Assertions -/

def Caller.key : Caller → Option Slot
  | .victim r _ => some r.idx
  | _ => none

def Caller.held : Caller → List Mutex
  | .victim r _ => [.key r.idx]
  | _ => []

def held : Pc → List Mutex
  | .checkStatus r | .checkOwner r | .setHeld r | .acquired r | .refused r | .addEdge r _
  | .detect r _ | .selfRemoveEdge r _ | .selfUnlock r | .waitCheck r _ | .waitUnlock r _
  | .removeEdge r _ => [.key r.idx]
  | .abortLock _ caller => caller.held
  | .abortCheck v caller | .clearEdges v caller | .freeWrites v caller | .releaseCheck v _ caller
  | .releaseLock v _ caller | .releaseClear v _ caller | .txnUnlock v caller =>
    .txn v :: caller.held
  | .releaseOwner v k caller | .releaseUnlock v k caller => .key k :: .txn v :: caller.held
  | .commitCheck t | .copy t _ | .setCommitted t => [.txn t]
  | _ => []

/-- Only the thread that drives a transaction asks for slots on its behalf. -/
structure Writing (th : Nat) (d : Store) (r : Request) : Prop where
  driver : d.driver r.txn = some th
  used : d.keys r.idx ≠ none

/-- The request is granted, unless the transaction has been aborted meanwhile. -/
def Owns (d : Store) (r : Request) : Prop :=
  Active d r.txn → d.owner r.idx = r.txn

/-- The wait edge is there as long as both ends are active. -/
structure EdgeOk (d : Store) (r : Request) (owner : Nat) : Prop where
  known : d.txns owner ≠ none
  edge : Active d r.txn → Active d owner → d.waitFor r.txn owner = true

def Inactive (d : Store) (v : Nat) : Prop :=
  d.txns v ≠ none ∧ ¬ Active d v

/-- The resource of `t->mtx`: an active transaction has not committed, and is not being copied. -/
def Uncommitted (d : Store) (t : Nat) : Prop :=
  Active d t → d.copying t = false ∧ ¬ Logged d t

/-- A commit after its last copy. -/
structure Committing (th : Nat) (d : Store) (t : Nat) (T : Transaction) : Prop where
  driver : d.driver t = some th
  txn : d.txns t = some T
  active : T.status = .active
  logged : Logged d t

/-- A commit that has copied `done` and has `rest` to copy. -/
structure Copying (th : Nat) (d : Store) (t : Nat) (T : Transaction)
    (done rest : List WriteEntry) : Prop where
  driver : d.driver t = some th
  txn : d.txns t = some T
  active : T.status = .active
  writes : T.writes = done ++ rest
  copying : d.copying t = true
  unlogged : ¬ Logged d t
  copied : ∀ w ∈ done, d.value w.keyIdx = w.value
  untouched : ∀ k, d.owner k = t → k ∉ slots done → d.value k = serial d.log k

def CallerOk (th : Nat) (d : Store) : Caller → Prop
  | .victim r _ => Writing th d r
  | _ => True

/-- `release_all_locks(v)` is run for a commit or for an abort. -/
def Releasing (th : Nat) (d : Store) (v : Nat) : Caller → Prop
  | .commit => ∃ T, Committing th d v T ∧ T.writes = []
  | .plain => Inactive d v
  | .victim r _ => Inactive d v ∧ Writing th d r

def At (th : Nat) (d : Store) : Pc → Prop
  | .idle => True
  | .openKey t _ _ | .commitLock t => d.driver t = some th
  | .acquireLock r | .checkStatus r | .checkOwner r | .refused r | .selfRemoveEdge r _
  | .selfUnlock r | .removeEdge r _ => Writing th d r
  | .setHeld r | .acquired r | .insert r => Writing th d r ∧ Owns d r
  | .addEdge r owner => Writing th d r ∧ d.txns owner ≠ none
  | .detect r owner | .waitCheck r owner | .waitUnlock r owner | .waiting r owner
  | .relock r owner => Writing th d r ∧ EdgeOk d r owner
  | .abortLock v caller => d.txns v ≠ none ∧ caller ≠ .commit ∧ CallerOk th d caller
  | .abortCheck v caller =>
    d.txns v ≠ none ∧ caller ≠ .commit ∧ CallerOk th d caller ∧ Uncommitted d v
  | .clearEdges v caller | .freeWrites v caller => caller ≠ .commit ∧ Releasing th d v caller
  | .releaseCheck v _ caller | .releaseClear v _ caller => Releasing th d v caller
  | .releaseLock v k caller =>
    Releasing th d v caller ∧ ∃ T, d.txns v = some T ∧ T.heldKeys k = true
  | .releaseOwner v k caller | .releaseUnlock v k caller =>
    Releasing th d v caller ∧ caller.key ≠ some k
  | .commitCheck t => d.driver t = some th ∧ Uncommitted d t
  | .copy t [] => ∃ T, Committing th d t T
  | .copy t (w :: rest) => ∃ T done, Copying th d t T done (w :: rest)
  | .setCommitted t => ∃ T, Committing th d t T
  | .txnUnlock v caller => Inactive d v ∧ CallerOk th d caller

/-- A thread's transaction is being copied only while the thread copies it. -/
def CopyOk (th : Nat) (d : Store) (p : Pc) : Prop :=
  ∀ t, d.driver t = some th → d.copying t = true → ∃ w rest, p = .copy t (w :: rest)

structure Local (th : Nat) (d : Store) (p : Pc) : Prop where
  copyOk : CopyOk th d p
  at_pc : At th d p

def Resource (m : Mutex) (d : Store) : Prop :=
  match m with
  | .txn t => Uncommitted d t
  | .key _ => True

/-! ## What the other threads leave alone -/

/-- The data may go from `d` to `d'` by an act of another thread while `u` holds the mutexes
of `q`. -/
structure Frame (u : Nat) (q : Mutex → Prop) (d d' : Store) : Prop where
  used : ∀ k, d.keys k ≠ none → d'.keys k ≠ none
  driver : ∀ t, d'.driver t = some u ↔ d.driver t = some u
  known : ∀ t, d.txns t ≠ none → d'.txns t ≠ none
  active : ∀ t, d.txns t ≠ none → Active d' t → Active d t
  owned : ∀ t k, d.driver t = some u → d.owner k = t → Active d' t → d'.owner k = t
  txn : ∀ t, q (.txn t) → d.driver t = some u → d'.txns t = d.txns t
  heldKey : ∀ v, q (.txn v) → ∀ V k, d.txns v = some V → V.heldKeys k = true →
    ∃ V', d'.txns v = some V' ∧ V'.heldKeys k = true
  logged : ∀ t, Logged d t → Logged d' t
  unlogged : ∀ t, q (.txn t) → Logged d' t → Logged d t
  copying : ∀ t, d.driver t = some u ∨ q (.txn t) → d'.copying t = d.copying t
  values : ∀ t k, d.driver t = some u → d'.owner k = t →
    d.owner k = t ∧ d'.value k = d.value k ∧ serial d'.log k = serial d.log k
  edge : ∀ a b, d.driver a = some u → d.waitFor a b = true → Active d' a → Active d' b →
    d'.waitFor a b = true

namespace Frame

variable {u : Nat} {q : Mutex → Prop} {d d' d'' : Store}

theorem refl (u : Nat) (q : Mutex → Prop) (d : Store) : Frame u q d d where
  used := fun _ h => h
  driver := fun _ => Iff.rfl
  known := fun _ h => h
  active := fun _ _ h => h
  owned := fun _ _ _ h _ => h
  txn := fun _ _ _ => rfl
  heldKey := fun _ _ V _ hV hk => ⟨V, hV, hk⟩
  logged := fun _ h => h
  unlogged := fun _ _ h => h
  copying := fun _ _ => rfl
  values := fun _ _ _ h => ⟨h, rfl, rfl⟩
  edge := fun _ _ _ h _ _ => h

section

variable (f : Frame u q d d')

include f

theorem trans (hinv : Inv d) (g : Frame u q d' d'') : Frame u q d d'' where
  used := fun k hk => g.used k (f.used k hk)
  driver := fun t => (g.driver t).trans (f.driver t)
  known := fun t ht => g.known t (f.known t ht)
  active := fun t ht ha => f.active t ht (g.active t (f.known t ht) ha)
  owned t k hd hk ha := by
    have hknown := f.known t (hinv.driver_known t u hd)
    exact g.owned t k ((f.driver t).2 hd) (f.owned t k hd hk (g.active t hknown ha)) ha
  txn := fun t ht hd => (g.txn t ht ((f.driver t).2 hd)).trans (f.txn t ht hd)
  heldKey v hv V k hV hk := by
    rcases f.heldKey v hv V k hV hk with ⟨V', hV', hk'⟩
    exact g.heldKey v hv V' k hV' hk'
  logged := fun t h => g.logged t (f.logged t h)
  unlogged := fun t ht h => f.unlogged t ht (g.unlogged t ht h)
  copying t ht := by
    have ht' : d'.driver t = some u ∨ q (.txn t) := ht.imp (f.driver t).2 id
    exact (g.copying t ht').trans (f.copying t ht)
  values t k hd hk := by
    rcases g.values t k ((f.driver t).2 hd) hk with ⟨hk', hv', hs'⟩
    rcases f.values t k hd hk' with ⟨hk'', hv'', hs''⟩
    exact ⟨hk'', hv'.trans hv'', hs'.trans hs''⟩
  edge a b hd hab ha hb := by
    rcases hinv.edge_known a b hab with ⟨hka, hkb⟩
    have ha' := g.active a (f.known a hka) ha
    have hb' := g.active b (f.known b hkb) hb
    exact g.edge a b ((f.driver a).2 hd) (f.edge a b hd hab ha' hb') ha hb

/-! ### Assertions carried over -/

variable {r : Request} {v t : Nat} {T : Transaction}

theorem writing (h : Writing u d r) : Writing u d' r :=
  ⟨(f.driver _).2 h.driver, f.used _ h.used⟩

theorem owns (hinv : Inv d) (hw : Writing u d r) (h : Owns d r) : Owns d' r := by
  intro ha
  -- nobody becomes active again, so the transaction was active before the act
  have ha' := f.active _ (hinv.driver_known _ u hw.driver) ha
  exact f.owned _ _ hw.driver (h ha') ha

theorem edgeOk (hinv : Inv d) {owner : Nat} (hw : Writing u d r) (h : EdgeOk d r owner) :
    EdgeOk d' r owner where
  known := f.known owner h.known
  edge ha hb := by
    have ha' := f.active _ (hinv.driver_known _ u hw.driver) ha
    have hb' := f.active _ h.known hb
    exact f.edge _ _ hw.driver (h.edge ha' hb') ha hb

theorem inactive (h : Inactive d v) : Inactive d' v :=
  ⟨f.known v h.1, fun ha => h.2 (f.active v h.1 ha)⟩

theorem uncommitted (hinv : Inv d) (ht : q (.txn t)) (h : Uncommitted d t) : Uncommitted d' t := by
  intro ha
  have hcopy := f.copying t (.inr ht)
  by_cases hknown : d.txns t = none
  · -- the transaction has just been created
    refine ⟨hcopy.trans (hinv.copying_eq_false ?_), fun hl => ?_⟩
    · rintro ⟨T, hT, -⟩
      simp [hknown] at hT
    · rcases f.unlogged t ht hl with ⟨e, he, rfl⟩
      rcases hinv.log_status e he with ⟨T, hT, -⟩
      simp [hknown] at hT
  · rcases h (f.active t hknown ha) with ⟨hc, hl⟩
    exact ⟨hcopy.trans hc, fun hl' => hl (f.unlogged t ht hl')⟩

theorem committing (ht : q (.txn t)) (h : Committing u d t T) : Committing u d' t T :=
  { h with
    driver := (f.driver t).2 h.driver
    txn := (f.txn t ht h.driver).trans h.txn
    logged := f.logged t h.logged }

theorem copyingTxn (hinv : Inv d)
    {done rest : List WriteEntry} (ht : q (.txn t)) (h : Copying u d t T done rest) :
    Copying u d' t T done rest := by
  have htxn : d'.txns t = some T := (f.txn t ht h.driver).trans h.txn
  refine { h with
    driver := (f.driver t).2 h.driver, txn := htxn
    copying := (f.copying t (.inl h.driver)).trans h.copying
    unlogged := fun hl => h.unlogged (f.unlogged t ht hl), copied := ?_, untouched := ?_ }
  · -- the slots copied so far are owned by `t`, and nobody else writes to them
    intro w hw
    have hmem : w.keyIdx ∈ slots T.writes := by
      rw [h.writes]
      exact mem_slots (List.mem_append_left _ hw)
    have hown := hinv.owned t T h.txn h.active _ hmem
    have hown' := f.owned t _ h.driver hown ⟨T, htxn, h.active⟩
    exact (f.values t _ h.driver hown').2.1.trans (h.copied w hw)
  · -- a commit logged meanwhile has not written a slot of `t`
    intro k hk hnot
    rcases f.values t k h.driver hk with ⟨hk', hv, hs⟩
    exact hv.trans ((h.untouched k hk' hnot).trans hs.symm)

theorem callerOk {caller : Caller} (h : CallerOk u d caller) : CallerOk u d' caller := by
  cases caller with
  | victim r owner => exact f.writing h
  | _ => trivial

theorem releasing {caller : Caller} (hv : q (.txn v)) (h : Releasing u d v caller) :
    Releasing u d' v caller := by
  cases caller with
  | commit =>
    rcases h with ⟨T, hT, hw⟩
    exact ⟨T, f.committing hv hT, hw⟩
  | plain => exact f.inactive h
  | victim r owner => exact ⟨f.inactive h.1, f.writing h.2⟩

/-- The assertion of a thread survives what the others do. -/
theorem preserves_at (hinv : Inv d) {p : Pc} (hq : ∀ m ∈ held p, q m) (h : At u d p) :
    At u d' p := by
  cases p with
  | idle => trivial
  | openKey t key value => exact (f.driver t).2 h
  | commitLock t => exact (f.driver t).2 h
  -- the request: its driver and its slot stay
  | acquireLock r | checkStatus r | checkOwner r | refused r | selfUnlock r => exact f.writing h
  | selfRemoveEdge r owner | removeEdge r owner => exact f.writing h
  -- the slot just taken cannot be taken away by the others
  | setHeld r | acquired r | insert r => exact ⟨f.writing h.1, f.owns hinv h.1 h.2⟩
  | addEdge r owner => exact ⟨f.writing h.1, f.known owner h.2⟩
  -- the others remove an edge only when they abort one of its ends
  | detect r owner | waitCheck r owner | waitUnlock r owner | waiting r owner | relock r owner =>
    exact ⟨f.writing h.1, f.edgeOk hinv h.1 h.2⟩
  | abortLock v caller => exact ⟨f.known v h.1, h.2.1, f.callerOk h.2.2⟩
  | abortCheck v caller =>
    have hv : q (.txn v) := hq _ (by simp [held])
    exact ⟨f.known v h.1, h.2.1, f.callerOk h.2.2.1, f.uncommitted hinv hv h.2.2.2⟩
  | clearEdges v caller | freeWrites v caller =>
    exact ⟨h.1, f.releasing (hq _ (by simp [held])) h.2⟩
  | releaseCheck v i caller | releaseClear v i caller => exact f.releasing (hq _ (by simp [held])) h
  | releaseLock v k caller =>
    have hv : q (.txn v) := hq _ (by simp [held])
    rcases h with ⟨hrel, V, hV, hk⟩
    exact ⟨f.releasing hv hrel, f.heldKey v hv V k hV hk⟩
  | releaseOwner v k caller | releaseUnlock v k caller =>
    exact ⟨f.releasing (hq _ (by simp [held])) h.1, h.2⟩
  | commitCheck t => exact ⟨(f.driver t).2 h.1, f.uncommitted hinv (hq _ (by simp [held])) h.2⟩
  | copy t rest =>
    have ht : q (.txn t) := hq _ (by simp [held])
    cases rest with
    | nil =>
      rcases h with ⟨T, hT⟩
      exact ⟨T, f.committing ht hT⟩
    | cons w rest =>
      rcases h with ⟨T, done, hT⟩
      exact ⟨T, done, f.copyingTxn hinv ht hT⟩
  | setCommitted t =>
    rcases h with ⟨T, hT⟩
    exact ⟨T, f.committing (hq _ (by simp [held])) hT⟩
  | txnUnlock v caller => exact ⟨f.inactive h.1, f.callerOk h.2⟩

theorem preserves_local (hinv : Inv d) {p : Pc} (hq : ∀ m ∈ held p, q m) (h : Local u d p) :
    Local u d' p where
  copyOk t hd hc := by
    have hd' := (f.driver t).1 hd
    exact h.copyOk t hd' ((f.copying t (.inl hd')).symm.trans hc)
  at_pc := f.preserves_at hinv hq h.at_pc

end

/-! ### Frames of the accesses -/

theorem setTxn {T' : Transaction} (hT : d.txns t = some T)
    (hactive : T'.status = .active → T.status = .active) (htxn : q (.txn t) → d.driver t ≠ some u)
    (hheld : q (.txn t) → ∀ k, T.heldKeys k = true → T'.heldKeys k = true) :
    Frame u q d (d.setTxn t T') :=
  { Frame.refl u q d with
    known := fun v hv => (Inv.known_setTxn hT).2 hv
    active := by
      rintro v - ⟨V, hV, hst⟩
      exact forall_update (P := fun v V => V.status = .active → Active d v)
        (fun hst => ⟨T, hT, hactive hst⟩)
        (fun v V hV hst => ⟨V, hV, hst⟩) v V hV hst
    owned := fun _ _ _ hk _ => hk
    txn v hv hd := by
      have hne : v ≠ t := by
        rintro rfl
        exact htxn hv hd
      exact Function.update_of_ne hne ..
    heldKey v hv V k hV hk := by
      refine exists_update (fun hvt => ?_) ⟨V, hV, hk⟩
      subst hvt
      cases hT.symm.trans hV
      exact hheld hv k hk
    edge := fun _ _ _ hab _ _ => hab }

theorem setTxn_held {T' : Transaction} (hT : d.txns t = some T)
    (hactive : T'.status = .active → T.status = .active) (hq : ¬ q (.txn t)) :
    Frame u q d (d.setTxn t T') :=
  Frame.setTxn hT hactive (fun h => absurd h hq) (fun h => absurd h hq)

theorem create {th : Nat} (hinv : Inv d) (hu : u ≠ th) : Frame u q d (d.create th) := by
  -- the new identifier is fresh, so the known transactions stay as they are
  have hold : ∀ v, d.txns v ≠ none → (d.create th).txns v = d.txns v := fun v hv =>
    Function.update_of_ne (by rintro rfl; exact hv hinv.not_known_next) ..
  refine { Frame.refl u q d with
    driver := ?_, known := ?_, active := ?_, owned := fun _ _ _ hk _ => hk, txn := ?_
    heldKey := ?_, edge := fun _ _ _ hab _ _ => hab }
  · intro t
    rcases eq_or_ne t d.nextTxnId with rfl | ht
    · have hnone : d.driver d.nextTxnId ≠ some u := fun hd =>
        hinv.driver_known _ u hd hinv.not_known_next
      simp [Store.create, hnone, hu.symm]
    · simp [Store.create, ht]
  · exact fun t ht => update_ne_none ht
  · rintro t ht ⟨T, hT, hst⟩
    exact ⟨T, (hold t ht).symm.trans hT, hst⟩
  · intro t _ hd
    exact hold t (hinv.driver_known t u hd)
  · intro v _ V k hV hk
    exact ⟨V, (hold v (by simp [hV])).trans hV, hk⟩

theorem openKey (hinv : Inv d) (key : CString) (idx : Slot) : Frame u q d (d.openKey key idx) := by
  rcases hinv.openKey_fields key idx with ⟨hvalue, howner⟩
  by_cases hidx : d.keys idx = none
  · simp only [Store.openKey, hidx] at hvalue howner ⊢
    refine { Frame.refl u q d with used := ?_, owned := ?_, values := ?_ }
    · -- opening a slot closes none
      intro k hk
      simpa [useSlot_of_used hk] using hk
    · intro t k _ hk _
      rwa [howner]
    · intro t k _ hk
      rw [howner] at hk
      exact ⟨hk, congrFun hvalue k, rfl⟩
  · simpa [Store.openKey, hidx] using Frame.refl u q d

theorem setOwner (hinv : Inv d) {idx : Slot} (hfree : d.owner idx = 0)
    (hd : d.driver t ≠ some u) : Frame u q d (d.setOwner idx t) := by
  refine { Frame.refl u q d with owned := ?_, values := ?_ }
  · -- a slot that `u`'s transaction owns is not the free one
    intro v k hv hk _
    have hne : k ≠ idx := by
      rintro rfl
      have hzero : v = 0 := hk.symm.trans hfree
      exact hinv.driver_known v u hv (hzero ▸ hinv.not_known_zero)
    simpa [Store.setOwner, hne] using hk
  · -- and the slot that is taken now goes to a transaction of somebody else
    intro v k hv hk
    by_cases hki : k = idx
    · have htv : t = v := by simpa [Store.setOwner, hki] using hk
      exact absurd (htv ▸ hv) hd
    · exact ⟨by simpa [Store.setOwner, hki] using hk, rfl, rfl⟩

theorem release (hinv : Inv d) {k : Slot} (hv : Active d v → d.driver v ≠ some u) :
    Frame u q d (d.release k v) := by
  unfold Store.release
  split_ifs with hown
  · refine { Frame.refl u q d with owned := ?_, values := ?_ }
    · -- an active transaction of `u` is not the one that gives the slot back
      intro t x ht hx ha
      have hne : x ≠ k := by
        rintro rfl
        have hvt : v = t := hown.symm.trans hx
        subst hvt
        exact hv ha ht
      simpa [hne] using hx
    · -- nobody owns the slot now
      intro t x ht hx
      have hne : x ≠ k := by
        rintro rfl
        have hzero : t = 0 := by simpa using hx.symm
        exact hinv.driver_known t u ht (hzero ▸ hinv.not_known_zero)
      exact ⟨by simpa [hne] using hx, rfl, rfl⟩
  · exact .refl u q d

theorem setEdge {a b : Nat} {x : Bool} (ha : d.driver a ≠ some u) :
    Frame u q d (d.setEdge a b x) := by
  unfold Store.setEdge
  split
  · exact .refl u q d
  · refine { Frame.refl u q d with edge := ?_ }
    -- only edges that leave `a` change
    intro i j hi hij _ _
    have hne : i ≠ a := fun e => ha (e ▸ hi)
    simpa [hne] using hij

theorem clearEdges (hv : ¬ Active d v) : Frame u q d (d.clearEdges v) := by
  refine { Frame.refl u q d with edge := ?_ }
  -- `v` is no end of an edge between active transactions
  intro i j _ hij hi hj
  have hiv : i ≠ v := by
    rintro rfl
    exact hv hi
  have hjv : j ≠ v := by
    rintro rfl
    exact hv hj
  simpa [Store.clearEdges, hiv, hjv] using hij

theorem setCopying {b : Bool} (hd : d.driver t ≠ some u) (hq : ¬ q (.txn t)) :
    Frame u q d { d with copying := Function.update d.copying t b } := by
  refine { Frame.refl u q d with copying := ?_ }
  intro v hv
  have hne : v ≠ t := by
    rintro rfl
    exact hv.elim hd hq
  simp [hne]

theorem copyEntry {w : WriteEntry} (hown : d.owner w.keyIdx = t)
    (hd : d.driver t ≠ some u) : Frame u q d (d.copyEntry w) := by
  refine { Frame.refl u q d with values := ?_ }
  -- the entry goes to a slot of `t`
  intro v k hv (hk : d.owner k = v)
  have hne : k ≠ w.keyIdx := by
    rintro rfl
    exact hd (hown.symm.trans hk ▸ hv)
  exact ⟨hk, by simp [Store.copyEntry, hne], rfl⟩

theorem logCommit (hinv : Inv d) (hT : d.txns t = some T)
    (hactive : T.status = .active) (hd : d.driver t ≠ some u) (hq : ¬ q (.txn t)) :
    Frame u q d (d.logCommit t T) :=
  { Frame.setCopying hd hq with
    logged := by
      rintro v ⟨e, he, hev⟩
      exact ⟨e, List.mem_cons_of_mem _ he, hev⟩
    unlogged := by
      rintro v hv ⟨e, he, hev⟩
      rcases List.mem_cons.1 he with rfl | he
      · have htv : t = v := hev
        exact absurd (htv ▸ hv) hq
      · exact ⟨e, he, hev⟩
    values := by
      -- `t` owns all it has written, so the serial values of the other slots stay
      intro v k hv (hk : d.owner k = v)
      have hnot : k ∉ slots T.writes := by
        intro hmem
        have htv : t = v := (hinv.owned t T hT hactive k hmem).symm.trans hk
        exact hd (htv ▸ hv)
      exact ⟨hk, rfl, execute_of_not_mem hnot⟩ }

end Frame

end SystemsLab.LockStore
