import SystemsLab.Mvcc.Frame

/-!
# The proof outline of the multi-version store
-/

namespace SystemsLab.Mvcc

open Concurrent KeyStore PartialMap List

/-! ## What an act leaves alone -/

variable {own : Mutex → Option Nat} {d d' : Store} {p p' next : Pc} {t : Nat} {T : Transaction}
  {m : Mutex}

/-- An act leaves alone what the mutexes that its thread does not hold guard.  `txn_write` changes a
write list without holding `t->mtx`, which is therefore named apart. -/
theorem Acts.frame {q : Mutex → Prop}
    (h : Acts own d p d' p') (hinv : Inv d) (hp : Local d p) (hq : ∀ m ∈ held p, ¬ q m)
    (hw : ∀ t idx value, p = .writeInsert t idx value → ¬ q (.txn t)) : Frame q d d' := by
  cases h with
  | createId _ =>
    exact { Frame.refl q d with
      creating := fun hc => absurd hc (hq .txns (by simp [held])) }
  | createTs id =>
    exact { Frame.refl q d with
      creating := fun hc => absurd hc (hq .txns (by simp [held]))
      clock := Nat.le_succ _ }
  | publish id startTs => exact .publish hp.1 (hq .txns (by simp [held])) startTs
  | readKey t key idx | writeKey t key value idx => exact .openKey hinv key idx
  | readOwn t idx T w _ _ => exact { Frame.refl q d with }
  | readScan t idx T _ => exact .readVersions t T idx
  | write t idx value T hT _ _ => exact .write hT (hw t idx value rfl) idx value
  | readOnlyTs t => exact .stampReadOnly (hq _ (by simp [held]))
  | readOnlyFinish t T hT | installed t commitTs locked T hT | abortConflict t T hT | commit t T hT
  | setAborted t T hT | abort t T hT _ => exact .setTxn hT (hq _ (by simp [held]))
  | stamp t locked T hT =>
    rcases hp with ⟨U, hU⟩
    cases hU.txn.symm.trans hT
    -- the write list lies in the locked slots
    refine Frame.stamp (hq _ (by simp [held])) ?_
    exact fun k hk => hq _ (by simp [held, hU.mem_locked hk])
  | install t commitTs w rest locked =>
    rcases hp with ⟨T, a, hinst⟩
    have hmem := (hinst.rest_mem w mem_cons_self).2
    exact .install (hq _ (by simp [held, hmem])) commitTs
  | _ => exact .refl q d

/-! ## The thread's own acts -/

theorem Acts.inv (h : Acts own d p d' p')
    (hinv : Inv d) (hres : ∀ m, own m = none → Resource m d) (hp : Local d p) : Inv d' := by
  cases h with
  | createId hlt => exact hinv.takeId hlt
  | createTs id => exact hinv.tick hp.2.2
  | publish id startTs => exact hinv.publish hp.1 hp.2.1 hp.2.2.1 hp.2.2.2
  | readKey t key idx | writeKey t key value idx => exact (hinv.openKey key idx).2
  | readOwn t idx T w hT hw => exact hinv.readLocal hT hw
  | readScan t idx T hT => exact hinv.readVersions hT hp
  | write t idx value T hT hfree hactive =>
    -- nobody commits or aborts the transaction, so its mutex is free and vouches for it
    have hopen : Open d t T := hres (.txn t) hfree T hT hactive
    exact hinv.write hT hactive hopen.unstamped hp value
  | readOnlyTs t =>
    rcases hp with ⟨T, hT, hopen, -⟩
    exact hinv.stampReadOnly (by simp [hT]) hopen.unstamped
  | readOnlyFinish t T hT => exact hinv.setCommitted hT fun k hk => absurd hk (hp.2 k)
  | stamp t locked T hT =>
    rcases hp with ⟨U, hU⟩
    cases hU.txn.symm.trans hT
    refine hinv.stamp hT hU.isOpen.active hU.isOpen.unstamped hU.isOpen.wrote ?_ ?_
    · -- validation has passed every entry, so the snapshot is still the newest state
      intro k hk
      rcases mem_map.1 hk with ⟨w, hw, rfl⟩
      rcases hU.fresh w hw with hnil | hfresh
      · cases hnil
      · exact hfresh
    · exact fun k hk => hU.installed k (hU.mem_locked hk)
  | install t commitTs w rest locked =>
    rcases hp with ⟨T, a, hinst⟩
    rcases hinst.commit with ⟨-, rfl⟩
    exact hinv.install hinst.logged (hinst.rest_mem w mem_cons_self).1
      (hinst.newer _ (mem_slots mem_cons_self))
  | installed t commitTs locked T hT =>
    rcases hp with ⟨U, a, hU⟩
    cases hU.txn.symm.trans hT
    exact hinv.freeWrites hT hU.active
  | abortConflict t T hT =>
    rcases hp with ⟨U, hU, hactive, -⟩
    cases hU.symm.trans hT
    exact hinv.freeWrites hT hactive
  | commit t T hT =>
    rcases hp with ⟨U, -, -, -, -, hlogged⟩
    exact hinv.setCommitted hT fun _ _ => hlogged
  | setAborted t T hT => exact hinv.setAborted hT hp.2
  | abort t T hT hactive => exact hinv.freeWrites hT hactive
  | _ => exact hinv

theorem Validating.stamp {locked : List Slot} (hinv : Inv d) (h : Validating d t [] locked T) :
    Installing (d.stamp t T) t d.globalTs T.writes locked T ⟨t, d.globalTs, T.writes⟩ where
  txn := h.txn
  active := h.isOpen.active
  logged := mem_cons_self
  commit := ⟨rfl, rfl⟩
  nodup := h.order ▸ lockWriteKeysSorted_nodup T.writes
  rest_nodup := hinv.txns.writes_nodup t T h.txn
  rest_mem w hw := ⟨hw, h.mem_locked (mem_slots hw)⟩
  newer := by
    -- every version belongs to a commit, and all commits so far are older than the clock
    intro k _ v hv
    rcases hinv.versions.logged k v hv with ⟨b, hb, hts, -⟩
    exact hts ▸ hinv.clock.commits_lt b hb
  installed k hk b hb hmem := by
    rcases mem_cons.1 hb with rfl | hb
    · exact .inr ⟨rfl, hmem⟩
    · exact .inl (h.installed k hk b hb hmem)

theorem Installing.install {commitTs : Nat} {w : WriteEntry} {rest : List WriteEntry}
    {locked : List Slot} {a : Commit} (h : Installing d t commitTs (w :: rest) locked T a) :
    Installing (d.install commitTs w) t commitTs rest locked T a := by
  have hnodup : w.keyIdx ∉ slots rest ∧ (slots rest).Nodup := by simpa [slots] using h.rest_nodup
  have hother : ∀ k, k ≠ w.keyIdx → (d.install commitTs w).versions k = d.versions k := by
    intro k hk
    simp [Store.install, hk]
  refine { h with
    rest_nodup := hnodup.2
    rest_mem := fun v hv => h.rest_mem v (mem_cons_of_mem _ hv)
    newer := ?_, installed := ?_ }
  · intro k hk
    have hne : k ≠ w.keyIdx := fun e => hnodup.1 (e ▸ hk)
    rw [hother k hne]
    exact h.newer k (mem_cons_of_mem _ hk)
  · intro k hk b hb hmem
    -- in the slot of `w` the new version is the missing one, the other slots still wait for theirs
    rcases eq_or_ne k w.keyIdx with rfl | hkw
    · left
      rcases h.installed _ hk b hb hmem with ⟨v, hv, hts⟩ | ⟨hts, -⟩
      · exact ⟨v, by simp [Store.install, hv], hts⟩
      · exact ⟨⟨w.value, commitTs⟩, by simp [Store.install], hts.symm⟩
    · rw [hother k hkw]
      rcases h.installed k hk b hb hmem with hv | ⟨hts, hslot⟩
      · exact .inl hv
      · exact .inr ⟨hts, (mem_cons.1 hslot).resolve_left hkw⟩

theorem Acts.establishes (h : Acts own d p d' p') (hinv : Inv d) (hp : Local d p) :
    Local d' p' := by
  cases h with
  | callCommit t ht | callAbort t ht => exact ht
  | createId hlt =>
    -- identifiers in use are below `next_txn_id`
    refine ⟨?_, Nat.lt_succ_self _, ?_⟩
    · by_contra hne
      rcases Option.ne_none_iff_exists'.1 hne with ⟨T, hT⟩
      exact lt_irrefl _ (hinv.txns.id_lt _ T hT)
    · have := hinv.clock.globalTs_le
      simp only [Store.takeId]
      omega
  | createTs id =>
    refine ⟨hp.1, hp.2.1, Nat.lt_succ_self _, ?_⟩
    exact fun a ha => (hinv.clock.commits_lt a ha).ne
  | readScan t idx T hT =>
    exact (Frame.readVersions (q := fun _ => True) t T idx).installed trivial hp
  | writeKey t key value idx => exact useSlot_self d.keys key idx
  | commitRefused t T hT hne | abortRefused t T hT hne => exact ⟨T, hT, hne⟩
  | commitReadOnly t T hT hactive hw => exact ⟨T, hT, hp.2 T hT hactive, hw⟩
  | commitWrites t T hT hactive => exact ⟨T, hT, hp.2 T hT hactive, rfl, by simp⟩
  | readOnlyTs t =>
    rcases hp with ⟨T, hT, hopen, hw⟩
    refine ⟨by simp [Store.stampReadOnly, Store.tick, hT], ?_⟩
    intro k hk
    simpa [hw, slots] using (hopen.wrote k).1 hk
  | readOnlyFinish t T hT | commit t T hT | setAborted t T hT =>
    exact ⟨_, setTxn_self d t _, by simp⟩
  | keysLocked t locked T hT =>
    rcases hp with ⟨U, hU, hopen, horder, hinst⟩
    cases hU.symm.trans hT
    exact ⟨T, hU, hopen, by simpa using horder, hinst, fun w hw => .inl hw⟩
  | conflict t w rest locked =>
    -- no timestamp has been drawn, so the transaction may still abort
    rcases hp with ⟨T, h⟩
    refine ⟨T, h.txn, h.isOpen.active, ?_, h.installed, h.isOpen.unstamped⟩
    rw [h.order]
    exact lockWriteKeysSorted_nodup T.writes
  | noConflict t w rest locked T hT hhead =>
    rcases hp with ⟨U, h⟩
    cases h.txn.symm.trans hT
    refine ⟨T, { h with fresh := ?_ }⟩
    intro v hv
    rcases h.fresh v hv with hmem | hfresh
    · rcases mem_cons.1 hmem with rfl | hmem
      · -- the head was not newer, so no version of the slot is
        exact .inr (headNewer_false (hinv.versions.descending _) hhead)
      · exact .inl hmem
    · exact .inr hfresh
  | validated t locked => exact hp
  | stamp t locked T hT =>
    rcases hp with ⟨U, h⟩
    cases h.txn.symm.trans hT
    exact ⟨T, _, h.stamp hinv⟩
  | install t commitTs w rest locked =>
    rcases hp with ⟨T, a, h⟩
    exact ⟨T, a, h.install⟩
  | installed t commitTs locked T hT =>
    rcases hp with ⟨U, a, h⟩
    cases h.txn.symm.trans hT
    -- with nothing left to install, the slots may be unlocked
    refine ⟨_, setTxn_self d t _, h.active, h.nodup, ?_, ?_⟩
    · intro k hk b hb hmem
      rcases h.installed k hk b hb hmem with hv | ⟨-, hnil⟩
      · exact hv
      · cases hnil
    · exact ⟨a, h.logged, h.commit.1⟩
  | abortConflict t T hT =>
    rcases hp with ⟨U, -, -, -, -, hnot⟩
    exact ⟨update_ne_none (by simp [hT]), hnot⟩
  | abort t T hT hactive => exact ⟨update_ne_none (by simp [hT]), (hp.2 T hT hactive).unstamped⟩
  | _ => trivial

theorem Acts.held_iff (h : Acts own d p d' p') (m : Mutex) : m ∈ held p' ↔ m ∈ held p := by
  cases h <;> simp [held]

/-- `txn_write` is the one act on a transaction whose mutex is free. -/
theorem OpenIfActive.write (hT : d.txns t = some T)
    (hactive : T.status = .active) (h : OpenIfActive d t) (idx : Slot) (value : CString) :
    OpenIfActive (d.write t T idx value) t := by
  have hopen := h T hT hactive
  intro U hU _
  rcases update_cases hU with ⟨-, rfl⟩ | ⟨hne, -⟩
  · refine ⟨hactive, hopen.unstamped, ?_⟩
    intro k
    simp [Store.write, hopen.wrote k, mem_slots_putWrite]
  · exact absurd rfl hne

theorem Acts.resource (h : Acts own d p d' p') (hinv : Inv d) (hp : Local d p) (hm : m ∉ held p)
    (hres : Resource m d) : Resource m d' := by
  cases m with
  | key k =>
    have hframe : Frame (· = .key k) d d' :=
      h.frame hinv hp (fun m' hm' e => hm (e ▸ hm')) (by simp)
    exact hframe.installed rfl hres
  | txn t =>
    -- `txn_write` keeps the resource although it does not hold the mutex
    by_cases hw : ∃ idx value, p = .writeInsert t idx value
    · rcases hw with ⟨idx, value, rfl⟩
      cases h with
      | write _ _ _ T hT _ hactive => exact OpenIfActive.write hT hactive hres idx value
    · have hframe : Frame (· = .txn t) d d' := by
        refine h.frame hinv hp (fun m' hm' e => hm (e ▸ hm')) ?_
        intro u idx value hpu hu
        cases hu
        exact hw ⟨idx, value, hpu⟩
      exact hframe.openIfActive hinv rfl hres
  | _ => trivial

/-! ## The outline -/

theorem Locks.establishes (h : Locks p m next) (hp : Local d p) (hres : Resource m d) :
    Local d next := by
  cases h with
  | createTs id | readOnlyTs t | stamp t locked => exact hp
  | read t idx => exact hres
  | commit t | abort t => exact ⟨hp, hres⟩
  | key t k todo locked =>
    rcases hp with ⟨T, hT, hopen, horder, hinst⟩
    exact ⟨T, hT, hopen, by simpa using horder,
      forall_mem_append.2 ⟨hinst, forall_mem_singleton.2 hres⟩⟩
  | _ => trivial

theorem Unlocks.establishes (h : Unlocks p m next) (hp : Local d p) :
    Resource m d ∧ Local d next := by
  cases h with
  | createTs id startTs | writeTable t idx value | readOnlyTs t | stamp t commitTs rest locked =>
    exact ⟨trivial, hp⟩
  | read idx => exact ⟨hp, trivial⟩
  | key t k locked conflict =>
    rcases hp with ⟨T, hT, hactive, hnodup, hinst, hend⟩
    refine ⟨hinst k mem_cons_self, T, hT, hactive, (nodup_cons.1 hnodup).2, ?_, hend⟩
    exact fun x hx => hinst x (mem_cons_of_mem _ hx)
  | txn t =>
    rcases hp with ⟨T, hT, hne⟩
    refine ⟨?_, trivial⟩
    intro U hU hactive
    rw [Option.some.inj (hU.symm.trans hT)] at hactive
    exact absurd hactive hne
  | _ => exact ⟨trivial, trivial⟩

theorem Locks.held_iff (h : Locks p m next) (m' : Mutex) :
    m' ∈ held next ↔ m' = m ∨ m' ∈ held p := by
  cases h with
  | key t k todo locked =>
    simp only [held, mem_cons, map_append, mem_append, map_cons]
    tauto
  | _ => simp [held]

theorem Unlocks.held_iff (h : Unlocks p m next)
    (hp : Local d p) : m ∈ held p ∧ ∀ m', m' ∈ held next ↔ m' ≠ m ∧ m' ∈ held p := by
  cases h with
  | key t k locked conflict =>
    rcases hp with ⟨T, -, -, hnodup, -⟩
    have hk : k ∉ locked := (nodup_cons.1 hnodup).1
    refine ⟨by simp [held], ?_⟩
    intro m'
    cases m' with
    | key x =>
      simp only [held, mem_cons, mem_map, Mutex.key.injEq, exists_eq_right, reduceCtorEq,
        false_or, ne_eq]
      constructor
      · intro hx
        exact ⟨fun e => hk (e ▸ hx), .inr hx⟩
      · rintro ⟨hne, rfl | hx⟩
        · exact absurd rfl hne
        · exact hx
    | _ => simp [held]
  | _ =>
    refine ⟨by simp [held], ?_⟩
    intro m'
    cases m' <;> simp [held]

def outline : Outline code (fun _ _ _ _ => True) where
  held := held
  inv := Inv
  res := Resource
  loc := fun _ d p => Local d p
  lock_loc hc hinv hp _ hres := by
    rcases locks_of_code hc with ⟨rfl, hl⟩
    exact ⟨hinv, hl.establishes hp hres⟩
  lock_held hc _ m' := (locks_of_code hc).2.held_iff m'
  lock_res hc _ _ _ _ _ hres := by
    rcases locks_of_code hc with ⟨rfl, -⟩
    exact hres
  lock_frame hc _ _ _ _ _ _ hq := by
    rcases locks_of_code hc with ⟨rfl, -⟩
    exact hq
  unlock_loc hc _ hp := (unlocks_of_code hc).establishes hp
  unlock_held hc hp := (unlocks_of_code hc).held_iff hp
  act_loc hc _ hf hinv hres hp := by
    have h := acts_of_code hc hf
    exact ⟨h.inv hinv hres hp, h.establishes hinv hp⟩
  act_held hc hf _ m := (acts_of_code hc hf).held_iff m
  act_res hc _ hf hinv hp hm hres := (acts_of_code hc hf).resource hinv hp hm hres
  act_frame := by
    intro th i own d p f d' p' u q hc _ hf hinv hp _ hdisj hown hq
    have h := acts_of_code hc hf
    have hframe : Frame (· ∈ held q) d d' := by
      refine h.frame hinv hp hdisj ?_
      rintro t idx value rfl hmem
      cases h with
      | write _ _ _ T _ hfree _ => simp [hown _ hmem] at hfree
    exact hframe.preserves_local hinv (fun _ hm => hm) hq

theorem outline_init : outline.Holds init := by
  refine Outline.Holds.start rfl inv_initialStore ?_ (fun _ => trivial)
  intro m
  cases m <;> simp [outline, Resource, OpenIfActive, Installed, initialStore]

theorem outline_run {as : List (Nat × Call)} {c : Config Mutex Store Pc}
    (h : run code init as = some c) : outline.Holds c :=
  Outline.run_holds outline_init (meets_of_forall (fun _ _ _ _ => trivial) as init) h

end SystemsLab.Mvcc
