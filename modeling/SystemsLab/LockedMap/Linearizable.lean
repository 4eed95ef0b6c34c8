import SystemsLab.LockedMap.Outline

/-!
# The map behaves as if its operations were carried out one by one

The order of the operations is the order in which they got the lock of their bucket.  A thread with
the lock of a bucket comes to the end of its call by its own steps: no other thread changes its
chain.  A thread that waits for a lock gets it when the owner has come to its end.
-/

namespace SystemsLab.LockedMap

open ChainBuckets Concurrent Function Option

/-- The thread returns if it runs alone. -/
def Finishes (c : Config (Fin NUM_BUCKETS) HashMap Pc) (th : Nat) : Prop :=
  ∃ as : List (Nat × Call), (∀ a ∈ as, a.1 = th) ∧ ∃ c', run code c as = some c' ∧ c'.pc th = .idle

variable {c c' : Config (Fin NUM_BUCKETS) HashMap Pc} {th : Nat} {p' : Pc} {d' : HashMap}
  {f : Nat → Call → (Fin NUM_BUCKETS → Option Nat) → HashMap → Option (HashMap × Pc)}
  {l : List Item}

theorem at_of_pc (h : outline.Holds c) (hpc : c.pc th = p') : At th c.data p' := hpc ▸ h.loc th

theorem finishes_of_idle (hpc : c.pc th = .idle) : Finishes c th := ⟨[], nofun, c, rfl, hpc⟩

/-- The input of a step that does not read it. -/
def anyInput : Call := .lookup .empty

theorem finishes_of_step (hs : step code c (th, anyInput) = some c') (h : Finishes c' th) :
    Finishes c th := by
  rcases h with ⟨as, has, c'', hrun, hidle⟩
  refine ⟨(th, anyInput) :: as, ?_, c'', run_cons.2 ⟨c', hs, hrun⟩, hidle⟩
  intro a ha
  rcases List.mem_cons.1 ha with rfl | ha
  · rfl
  · exact has a ha

theorem finishes_act (h : outline.Holds c) (hcode : code (c.pc th) = .act f)
    (hf : f th anyInput c.owner c.data = some (d', p'))
    (hnext : ∀ c', outline.Holds c' → c'.pc th = p' → c'.data = d' → Finishes c' th) :
    Finishes c th := by
  have hs : step code c (th, anyInput) = some ⟨c.owner, update c.pc th p', d'⟩ := by
    simp only [step, hcode, hf]
  refine finishes_of_step hs (hnext _ (Outline.step_holds h trivial hs) ?_ rfl)
  exact update_self ..

theorem finishes_unlock {m : Fin NUM_BUCKETS} (h : outline.Holds c)
    (hcode : code (c.pc th) = .unlock m p')
    (hnext : ∀ c', outline.Holds c' → c'.pc th = p' → Finishes c' th) : Finishes c th := by
  have hs : step code c (th, anyInput) =
    some ⟨update c.owner m none, update c.pc th p', c.data⟩ := by
    simp only [step, hcode]
  refine finishes_of_step hs (hnext _ (Outline.step_holds h trivial hs) ?_)
  exact update_self ..

theorem finishes_lock {m : Fin NUM_BUCKETS} {mark : Nat → HashMap → HashMap} (h : outline.Holds c)
    (hcode : code (c.pc th) = .lock m mark p') (hfree : c.owner m = none)
    (hnext : ∀ c', outline.Holds c' → c'.pc th = p' → Finishes c' th) : Finishes c th := by
  have hs : step code c (th, anyInput) =
    some ⟨update c.owner m (some th), update c.pc th p', mark th c.data⟩ := by
    simp only [step, hcode, hfree]
  refine finishes_of_step hs (hnext _ (Outline.step_holds h trivial hs) ?_)
  exact update_self ..

/-- The loop over a chain, by induction on its rest: it ends at `NULL` or at the key, and the thread
returns from both. -/
theorem finishes_scan {scan : Option Nat → Pc} {hit : Nat → Pc} {key : CString}
    {i : Fin NUM_BUCKETS} (hcode : ∀ e, code (scan (some e)) = .act fun _ _ _ map => orCrash map do
      let entry ← map.heap.cell e
      some (map, if entry.key = key then hit e else scan entry.next))
    (hend : ∀ {c}, outline.Holds c → c.pc th = scan none → Finishes c th)
    (hhit : ∀ {c a}, outline.Holds c → c.pc th = hit a → Finishes c th) (before : List Item)
    (h : outline.Holds c) (hchain : Chain c.data i (before ++ l))
    (hpc : c.pc th = scan (l.map Item.addr).head?) : Finishes c th := by
  induction l generalizing c before with
  | nil => exact hend h hpc
  | cons x l ih =>
    have hcell := cell_eq hchain
    rw [← List.singleton_append, ← List.append_assoc] at hchain
    refine finishes_act h (by rw [hpc]; exact hcode x.addr)
      (by simp only [hcell]; rfl) ?_
    intro c' h' hpc' hdata
    split_ifs at hpc' with hx
    · exact hhit h' hpc'
    · -- the step has read only, so the rest of the chain is still there
      rw [← hdata] at hchain
      exact ih _ h' hchain hpc'

/-! ## `hashmap_insert` -/

section Insert

variable {r : Insertion} {key : CString} {a : Nat}

variable (h : outline.Holds c)

include h

theorem finishes_insertUnlock (hpc : c.pc th = .insertUnlock key) : Finishes c th :=
  finishes_unlock h (by rw [hpc]; rfl) fun _ _ hidle => finishes_of_idle hidle

theorem finishes_publish (hpc : c.pc th = .publish key a) : Finishes c th :=
  finishes_act h (by rw [hpc]; rfl) rfl fun _ h' hpc' _ => finishes_insertUnlock h' hpc'

theorem finishes_link (hpc : c.pc th = .link key a) : Finishes c th := by
  rcases at_of_pc h hpc with ⟨l, value, next, -, -, hcell, -⟩
  refine finishes_act h (by rw [hpc]; rfl)
    (by simp only [Heap.modify_eq hcell]; rfl) ?_
  intro c' h' hpc' _
  exact finishes_publish h' hpc'

theorem finishes_create (hpc : c.pc th = .create r) : Finishes c th :=
  finishes_act h (by rw [hpc]; rfl) rfl fun _ h' hpc' _ => finishes_link h' hpc'

theorem finishes_assign (hpc : c.pc th = .assign r a) : Finishes c th := by
  rcases at_of_pc h hpc with ⟨before, x, l, hchain, -, rfl, -⟩
  refine finishes_act h (by rw [hpc]; rfl)
    (by simp only [Heap.modify_eq (cell_eq hchain)]; rfl) ?_
  intro c' h' hpc' _
  exact finishes_insertUnlock h' hpc'

theorem finishes_insertScan (before : List Item) (hchain : Chain c.data (hash r.key) (before ++ l))
    (hpc : c.pc th = .insertScan r (l.map Item.addr).head?) : Finishes c th :=
  finishes_scan (fun _ => rfl) (fun h' hpc' => finishes_act h' (by rw [hpc']; rfl) rfl
    fun _ h'' hpc'' _ => finishes_create h'' hpc'') finishes_assign before h hchain hpc

theorem finishes_insertFirst (hpc : c.pc th = .insertFirst r) : Finishes c th := by
  rcases at_of_pc h hpc with ⟨l, hchain, -⟩
  refine finishes_act h (by rw [hpc]; rfl) rfl ?_
  intro c' h' hpc' hdata
  rw [hchain.start] at hpc'
  rw [← hdata] at hchain
  exact finishes_insertScan h' [] hchain hpc'

end Insert

/-! ## `hashmap_lookup` -/

section Lookup

variable {key : CString} {a : Nat} {result : Option Int}

variable (h : outline.Holds c)

include h

theorem finishes_lookupReturn (hpc : c.pc th = .lookupReturn key result) : Finishes c th :=
  finishes_act h (by rw [hpc]; rfl) rfl fun _ _ hidle _ => finishes_of_idle hidle

theorem finishes_lookupUnlock (hpc : c.pc th = .lookupUnlock key result) : Finishes c th :=
  finishes_unlock h (by rw [hpc]; rfl) fun _ h' hpc' => finishes_lookupReturn h' hpc'

theorem finishes_fetch (hpc : c.pc th = .fetch key a) : Finishes c th := by
  rcases at_of_pc h hpc with ⟨before, x, l, hchain, rfl, -⟩
  refine finishes_act h (by rw [hpc]; rfl)
    (by simp only [cell_eq hchain]; rfl) ?_
  intro c' h' hpc' _
  exact finishes_lookupUnlock h' hpc'

theorem finishes_lookupScan (before : List Item) (hchain : Chain c.data (hash key) (before ++ l))
    (hpc : c.pc th = .lookupScan key (l.map Item.addr).head?) : Finishes c th :=
  finishes_scan (fun _ => rfl) (fun h' hpc' => finishes_act h' (by rw [hpc']; rfl) rfl
    fun _ h'' hpc'' _ => finishes_lookupUnlock h'' hpc'') finishes_fetch before h hchain hpc

theorem finishes_lookupFirst (hpc : c.pc th = .lookupFirst key) : Finishes c th := by
  rcases at_of_pc h hpc with ⟨⟨l, hchain, -⟩, -⟩
  refine finishes_act h (by rw [hpc]; rfl) rfl ?_
  intro c' h' hpc' hdata
  rw [hchain.start] at hpc'
  rw [← hdata] at hchain
  exact finishes_lookupScan h' [] hchain hpc'

end Lookup

/-! ## All threads -/

variable {u : Nat} {i : Fin NUM_BUCKETS}

theorem finishes_of_within (h : outline.Holds c) (hi : within (c.pc th) = some i) :
    Finishes c th := by
  cases hpc : c.pc th with
  | insertFirst r => exact finishes_insertFirst h hpc
  | insertScan r e =>
    rcases at_of_pc h hpc with ⟨before, l, hchain, -, rfl, -⟩
    exact finishes_insertScan h before hchain hpc
  | assign r a => exact finishes_assign h hpc
  | create r => exact finishes_create h hpc
  | link key a => exact finishes_link h hpc
  | publish key a => exact finishes_publish h hpc
  | insertUnlock key => exact finishes_insertUnlock h hpc
  | lookupFirst key => exact finishes_lookupFirst h hpc
  | lookupScan key e =>
    rcases at_of_pc h hpc with ⟨before, l, hchain, -, rfl, -⟩
    exact finishes_lookupScan h before hchain hpc
  | fetch key a => exact finishes_fetch h hpc
  | lookupUnlock key result => exact finishes_lookupUnlock h hpc
  | _ =>
    rw [hpc] at hi
    cases hi

theorem free_of_finished (h : outline.Holds c) (hu : c.owner i = some u) {as : List (Nat × Call)}
    (has : ∀ a ∈ as, a.1 = u) (hrun : run code c as = some c') (h' : outline.Holds c')
    (hidle : c'.pc u = .idle) :
    c'.owner i = none := by
  cases hw : c'.owner i with
  | none => rfl
  | some w =>
    have hwithin := (h'.owns i w).1 hw
    by_cases hwu : w = u
    · rw [hwu, hidle] at hwithin
      cases hwithin
    · -- another thread has not moved, so it was an owner before
      have hpc : c'.pc w = c.pc w :=
        run_pc_of_not_mem (fun a ha heq => hwu (heq.trans (has a ha))) hrun
      rw [hpc] at hwithin
      exact absurd (h.exclusive hwithin ((h.owns i u).1 hu)) hwu

theorem exists_run_of_lock {mark : Nat → HashMap → HashMap} (h : outline.Holds c)
    (hcode : code (c.pc th) = .lock i mark p') :
    ∃ as c', run code c as = some c' ∧ c'.pc th = .idle := by
  have hnext : ∀ c', outline.Holds c' → c'.pc th = p' → Finishes c' th := by
    intro c' h' hpc'
    refine finishes_of_within (i := i) h' ?_
    rw [hpc']
    exact (lock_spec hcode).2.1
  cases hu : c.owner i with
  | none =>
    rcases finishes_lock h hcode hu hnext with ⟨as, -, c', hrun, hidle⟩
    exact ⟨as, c', hrun, hidle⟩
  | some u =>
    have hwithin : within (c.pc u) = some i := mem_toList.1 ((h.owns i u).1 hu)
    rcases finishes_of_within h hwithin with ⟨as, has, c1, hrun1, hidle1⟩
    have h1 : outline.Holds c1 :=
      Outline.run_holds h (meets_of_forall (fun _ _ _ _ => trivial) as c) hrun1
    have hfree := free_of_finished h hu has hrun1 h1 hidle1
    -- the owner holds a lock and the thread does not
    have hne : th ≠ u := by
      rintro rfl
      rw [(lock_spec hcode).1] at hwithin
      cases hwithin
    have hpc : c1.pc th = c.pc th :=
      run_pc_of_not_mem (fun a ha heq => hne (heq.trans (has a ha))) hrun1
    rw [← hpc] at hcode
    rcases finishes_lock h1 hcode hfree hnext with ⟨as', -, c', hrun', hidle'⟩
    exact ⟨as ++ as', c', run_append.2 ⟨c1, hrun1, hrun'⟩, hidle'⟩

theorem exists_run_to_idle (h : outline.Holds c) (th : Nat) :
    ∃ as c', run code c as = some c' ∧ c'.pc th = .idle := by
  have alone : Finishes c th → ∃ as c', run code c as = some c' ∧ c'.pc th = .idle := by
    rintro ⟨as, -, c', hrun, hidle⟩
    exact ⟨as, c', hrun, hidle⟩
  cases hi : within (c.pc th) with
  | some i => exact alone (finishes_of_within h hi)
  | none =>
    cases hpc : c.pc th with
    | idle => exact ⟨[], c, rfl, hpc⟩
    | insertLock r => exact exists_run_of_lock h (by rw [hpc]; rfl)
    | lookupLock key => exact exists_run_of_lock h (by rw [hpc]; rfl)
    | lookupReturn key result => exact alone (finishes_lookupReturn h hpc)
    | crash => exact (at_of_pc h hpc).elim
    | _ =>
      rw [hpc] at hi
      cases hi

/-! ## All runs -/

structure Linearized (c : Config (Fin NUM_BUCKETS) HashMap Pc) : Prop where
  /-- Every chain holds keys of its bucket, and none of them twice. -/
  chains : ∀ i, ∃ l, Chain c.data i l
  /-- A bucket that nobody works on holds what the operations of the log leave in it. -/
  settled : ∀ i, c.owner i = none → Settled c.data i
  /-- A lookup returns the value of the last insertion of its key before its own
    place in the log. -/
  lookups : ∀ th key result, c.pc th = .lookupReturn key result →
    c.data.log[c.data.ticket th]? = some (.lookup key) ∧
      result = lastInsert key (c.data.log.take (c.data.ticket th))
  /-- No bad pointer is followed. -/
  safe : ∀ th, c.pc th ≠ .crash
  /-- A thread with a lock returns by its own steps, and every thread can return. -/
  returns : ∀ th, ((within (c.pc th)).isSome → Finishes c th) ∧
    ∃ as c', run code c as = some c' ∧ c'.pc th = .idle

theorem linearized_of_holds (h : outline.Holds c) : Linearized c where
  chains i := by
    cases hi : c.owner i with
    | none =>
      rcases h.res i hi with ⟨l, hchain, -⟩
      exact ⟨l, hchain⟩
    | some th =>
      -- in the middle of an operation its thread knows the chain
      exact At.exists_chain (h.loc th) (mem_toList.1 ((h.owns i th).1 hi))
  settled := h.res
  lookups th key result hpc := at_of_pc h hpc
  safe th hpc := at_of_pc h hpc
  returns th := by
    refine ⟨fun hsome => ?_, exists_run_to_idle h th⟩
    rcases isSome_iff_exists.1 hsome with ⟨i, hi⟩
    exact finishes_of_within h hi

/-- The operations can change places: the chains are the same, and so are the results of these
operations and of all later ones. -/
structure CanSwap (op1 op2 : Op) : Prop where
  contents : ∀ before rest, after (before ++ op1 :: op2 :: rest) =
    after (before ++ op2 :: op1 :: rest)
  later : ∀ before rest key,
    lastInsert key (before ++ op1 :: op2 :: rest) = lastInsert key (before ++ op2 :: op1 :: rest)
  first : ∀ before, lastInsert op1.key (before ++ [op2]) = lastInsert op1.key before
  second : ∀ before, lastInsert op2.key (before ++ [op1]) = lastInsert op2.key before

theorem canSwap_of_hash_ne {op1 op2 : Op} (h : hash op1.key ≠ hash op2.key) : CanSwap op1 op2 where
  contents := after_swap h
  later before rest key := by rw [← lookup_after, ← lookup_after, after_swap h]
  first _ := lastInsert_concat_of_ne fun heq => h (congrArg hash heq.symm)
  second _ := lastInsert_concat_of_ne fun heq => h (congrArg hash heq)

/-- Any number of threads, any keys and any schedule. -/
theorem hashmap_linearizable (as : List (Nat × Call)) (c : Config (Fin NUM_BUCKETS) HashMap Pc)
    (hrun : run code init as = some c) :
    Linearized c ∧ ∀ op1 op2 : Op, hash op1.key ≠ hash op2.key → CanSwap op1 op2 :=
  ⟨linearized_of_holds (outline_run hrun), fun _ _ => canSwap_of_hash_ne⟩

def keyA : CString := .ofLiteral "a"

/-- Thread 2 inserts into another bucket while thread 0 is at work, and thread 1 into the same one
afterwards; then thread 0 looks its key up. -/
def threeThreads : List (Nat × Call) :=
  List.flatten
    [List.replicate 5 (0, .insert ⟨keyA, 5, 0⟩),
      List.replicate 8 (2, .insert ⟨.ofLiteral "b", 7, 0⟩),
      List.replicate 3 (0, .insert ⟨keyA, 5, 0⟩),
      List.replicate 9 (1, .insert ⟨.ofLiteral "q", 6, 0⟩),
      List.replicate 7 (0, .lookup keyA)]

theorem hashmap_linearizable_threeThreads :
    ∃ c, run code init threeThreads = some c ∧ c.pc 0 = .lookupReturn keyA (some 5) ∧ Linearized c ∧
      CanSwap (.lookup keyA) (.insert (.ofLiteral "b") 7) := by
  obtain ⟨c, hrun, hpc⟩ :
      ∃ c, run code init threeThreads = some c ∧ c.pc 0 = .lookupReturn keyA (some 5) :=
    exists_of_run _ (by decide +kernel)
  rcases hashmap_linearizable threeThreads c hrun with ⟨hlinearized, hswap⟩
  exact ⟨c, hrun, hpc, hlinearized, hswap _ _ (by decide +kernel)⟩

end SystemsLab.LockedMap
