import SystemsLab.RequestQueue.Steps

/-!
# Every request is dequeued once

A worker returns after its first shutdown request, and there are as many of these as workers.  So
when all workers have returned, all shutdown requests are dequeued; they are the last requests of
the queue, and nothing is left in it.
-/

namespace SystemsLab.RequestQueue

open Concurrent WaitSet List

def isShutdown (r : Request) : Bool := r.id = -1

variable {t : Team} {th : Nat} {r : Request} {log : List (Nat × Request)} {d : Shared}

theorem mem_requestsOf : r ∈ requestsOf th log ↔ (th, r) ∈ log := by
  simp [requestsOf]

theorem count_requestsOf : (requestsOf th log).count r = log.count (th, r) := by
  induction log with
  | nil => rfl
  | cons x log ih =>
    rcases x with ⟨u, s⟩
    rcases eq_or_ne u th with rfl | hu
    · have hcons : requestsOf u ((u, s) :: log) = s :: requestsOf u log := by simp [requestsOf]
      rw [hcons, count_cons, count_cons, ih]
      simp
    · have hcons : requestsOf th ((u, s) :: log) = requestsOf th log := by simp [requestsOf, hu]
      rw [hcons, ih, count_cons_of_ne]
      exact fun heq => hu (congrArg Prod.fst heq)

/-- The threads that have taken a shutdown request, once for each. -/
def shutdownsTaken (log : List (Nat × Request)) : List Nat :=
  (log.filter fun x => isShutdown x.2).map Prod.fst

theorem count_shutdownsTaken :
    (shutdownsTaken log).count th = (requestsOf th log).countP isShutdown := by
  rw [shutdownsTaken, requestsOf, count, countP_map, countP_map, countP_filter, countP_filter]
  congr 1
  funext x
  rcases x with ⟨u, s⟩
  by_cases hu : u = th <;> simp [hu]

theorem length_shutdownsTaken :
    (shutdownsTaken log).length = (log.map Prod.snd).countP isShutdown := by
  rw [shutdownsTaken, length_map, countP_map, countP_eq_length_filter]
  rfl

/-- If every worker has taken one shutdown request, there are as many of them as workers. -/
theorem countP_isShutdown_dequeued (hinv : Inv t d)
    (hone : ∀ w, t.isWorker w → (requestsOf w d.dequeued).countP isShutdown = 1) :
    (d.dequeued.map Prod.snd).countP isShutdown = t.workers := by
  have hworker : ∀ w ∈ shutdownsTaken d.dequeued, t.isWorker w := by
    intro w hw
    rcases mem_map.1 hw with ⟨x, hx, rfl⟩
    exact hinv.takers x (mem_of_mem_filter hx)
  have hcount : ∀ w, t.isWorker w → (shutdownsTaken d.dequeued).count w = 1 := by
    intro w hw
    rw [count_shutdownsTaken]
    exact hone w hw
  have hnodup : (shutdownsTaken d.dequeued).Nodup :=
    nodup_iff_count_eq_one.2 fun w hw => hcount w (hworker w hw)
  have hall : ∀ w, w ∈ shutdownsTaken d.dequeued ↔ w ∈ range' t.clients t.workers := by
    intro w
    have hrange : w ∈ range' t.clients t.workers ↔ t.isWorker w := by
      rw [mem_range'_1]
      exact Iff.rfl
    rw [hrange]
    refine ⟨hworker w, fun hw => ?_⟩
    rw [← count_pos_iff, hcount w hw]
    exact Nat.one_pos
  have hperm : (shutdownsTaken d.dequeued).Perm (range' t.clients t.workers) :=
    (perm_ext_iff_of_nodup hnodup nodup_range').2 hall
  rw [← length_shutdownsTaken, hperm.length_eq, length_range']

/-! ## The requests of the clients -/

theorem Inv.id_pos (h : Inv t d) {x : Nat × Request} (hx : x ∈ d.produced) : 1 ≤ x.2.id := by
  have hid : x.2.id ∈ d.produced.map (fun x => x.2.id) := mem_map_of_mem hx
  rw [h.numbered] at hid
  rcases mem_map.1 hid with ⟨k, -, hk⟩
  omega

theorem Inv.ids_nodup (h : Inv t d) : (d.produced.map fun x => x.2.id).Nodup := by
  rw [h.numbered]
  refine List.Nodup.map (fun a b hab => ?_) nodup_range
  omega

theorem Inv.eq_of_id_eq (h : Inv t d) {x y : Nat × Request} (hx : x ∈ d.produced)
    (hy : y ∈ d.produced) (hid : x.2.id = y.2.id) : x = y :=
  inj_on_of_nodup_map h.ids_nodup hx hy hid

variable {c : Config Mutex Shared Pc} {requests : List (Nat × Request)} {n : Nat}
  {x : Nat × Request}

theorem count_enqueued_le (h : (sections t).outline.Holds c) (hx : x.1 < t.clients) :
    c.data.enqueued.count x ≤ c.data.produced.count x := by
  have hat : At t x.1 c.data (c.pc x.1) := h.loc x.1
  have hsent := (hat.client hx).sent
  calc
    c.data.enqueued.count x = (requestsOf x.1 c.data.enqueued).count x.2 := count_requestsOf.symm
    _ ≤ (requestsOf x.1 c.data.produced).count x.2 := by
        rw [hsent, count_append]
        exact Nat.le_add_right _ _
    _ = c.data.produced.count x := count_requestsOf

theorem mem_produced (h : (sections t).outline.Holds c) (hx : x ∈ c.data.enqueued)
    (hclient : x.1 < t.clients) : x ∈ c.data.produced := by
  have hle := count_enqueued_le h hclient
  have hpos : 0 < c.data.enqueued.count x := count_pos_iff.2 hx
  exact count_pos_iff.1 (hpos.trans_le hle)

/-- The part of the log that comes from the clients. -/
structure FromClients (t : Team) (d : Shared) (requests : List (Nat × Request)) (n : Nat) :
    Prop where
  parts : d.enqueued = requests ++ List.replicate n (t.main, shutdown)
  clients : ∀ x ∈ requests, x.1 < t.clients
  finished : 0 < n → ∀ u < t.clients, u ∈ d.finished

section

variable (hparts : FromClients t c.data requests n)

include hparts

theorem FromClients.mem_produced (h : (sections t).outline.Holds c) (hx : x ∈ requests) :
    x ∈ c.data.produced := by
  apply RequestQueue.mem_produced h _ (hparts.clients x hx)
  rw [hparts.parts]
  exact mem_append_left _ hx

theorem FromClients.nodup (h : (sections t).outline.Holds c) : (requests.map Prod.snd).Nodup := by
  have hinv : Inv t c.data := h.inv
  have hpairs : requests.Nodup := by
    refine nodup_iff_count_eq_one.2 fun x hx => ?_
    have hpos : 0 < requests.count x := count_pos_iff.2 hx
    have hproduced : c.data.produced.count x ≤ 1 :=
      nodup_iff_count_le_one.1 (hinv.ids_nodup.of_map _) x
    have henqueued := count_enqueued_le h (hparts.clients x hx)
    rw [hparts.parts, count_append] at henqueued
    omega
  refine List.Nodup.map_on (fun x hx y hy hxy => ?_) hpairs
  exact hinv.eq_of_id_eq (hparts.mem_produced h hx) (hparts.mem_produced h hy)
    (congrArg Request.id hxy)

theorem FromClients.not_isShutdown
    (h : (sections t).outline.Holds c) : (requests.map Prod.snd).countP isShutdown = 0 := by
  rw [countP_eq_zero]
  intro r hr
  rcases mem_map.1 hr with ⟨x, hx, rfl⟩
  have hpos := (h.inv : Inv t c.data).id_pos (hparts.mem_produced h hx)
  rw [isShutdown, decide_eq_true_eq]
  omega

theorem map_snd_enqueued : c.data.enqueued.map Prod.snd = requests.map Prod.snd ++
    replicate n shutdown := by
  rw [hparts.parts, map_append, map_replicate]

theorem FromClients.countP_enqueued
    (h : (sections t).outline.Holds c) : (c.data.enqueued.map Prod.snd).countP isShutdown = n := by
  have hshutdown : isShutdown shutdown = true := rfl
  rw [map_snd_enqueued hparts, countP_append, hparts.not_isShutdown h, countP_replicate,
    if_pos hshutdown, zero_add]

end

theorem sentBy_le {p : Pc} (h : bound t p) : sentBy t p ≤ t.workers := by
  cases p with
  | sendShutdown iterator => exact h
  | enqueueLock r k | enqueueTest r k | notFullWait r k | notFullRelease r k | notFullBlocked r k
  | store r k =>
    cases k with
    | client iterator => exact Nat.zero_le _
    | main iterator => exact Nat.le_of_lt h.1
  | signalNotEmpty k | enqueueUnlock k =>
    cases k with
    | client iterator => exact Nat.zero_le _
    | main iterator => exact h
  | joinWorkers iterator | mainDone => exact Nat.le_refl _
  | _ => exact Nat.zero_le _

theorem FromClients.le_workers (hparts : FromClients t c.data requests n)
    (h : (sections t).outline.Holds c) : n ≤ t.workers := by
  have hat : At t t.main c.data (c.pc t.main) := h.loc t.main
  have hnone : requestsOf t.main requests = [] := by
    rw [eq_nil_iff_forall_not_mem]
    intro r hr
    have hclient := hparts.clients _ (mem_requestsOf.1 hr)
    rw [Team.main] at hclient
    omega
  have hlength : (requestsOf t.main c.data.enqueued).length = n := by
    rw [hparts.parts, requestsOf_append, hnone]
    simp [requestsOf]
  rw [(hat.main rfl).sent, length_replicate] at hlength
  exact hlength ▸ sentBy_le hat.bound

/-! ## After the last worker -/

def WorkersDone (t : Team) (c : Config Mutex Shared Pc) : Prop :=
  ∀ w, t.isWorker w → c.pc w = .workerDone

theorem WorkersDone.taken (hdone : WorkersDone t c) (h : (sections t).outline.Holds c) {w : Nat}
    (hw : t.isWorker w) : (requestsOf w c.data.dequeued).countP isShutdown = 1 := by
  have hat : At t w c.data (c.pc w) := h.loc w
  rw [hdone w hw] at hat
  exact hat.worker hw

/-- All shutdown requests have been sent and taken, and they were the last ones. -/
theorem WorkersDone.queue_empty (hdone : WorkersDone t c) (h : (sections t).outline.Holds c)
    (hpos : 0 < t.workers) (hparts : FromClients t c.data requests n) :
    n = t.workers ∧ c.data.queue.contents = [] := by
  have hinv : Inv t c.data := h.inv
  have htaken := countP_isShutdown_dequeued hinv fun w hw => hdone.taken h hw
  have hsent := hparts.countP_enqueued h
  have hle := hparts.le_workers h
  rw [hinv.order, countP_append, htaken] at hsent
  have hn : n = t.workers := by omega
  have hrest : c.data.queue.contents.countP isShutdown = 0 := by omega
  refine ⟨hn, ?_⟩
  by_contra hne
  -- the last element of the queue would be the last shutdown request
  have hlast : c.data.queue.contents.getLast? = some shutdown := by
    have hall : (c.data.enqueued.map Prod.snd).getLast? = some shutdown := by
      rw [map_snd_enqueued hparts, getLast?_append, getLast?_replicate, if_neg (by omega)]
      rfl
    rw [hinv.order, getLast?_append] at hall
    cases hcontents : c.data.queue.contents.getLast? with
    | none => exact absurd (getLast?_eq_none_iff.1 hcontents) hne
    | some z =>
      rwa [hcontents] at hall
  exact countP_eq_zero.1 hrest shutdown (mem_of_getLast? hlast) rfl

theorem WorkersDone.dequeued_once (hinv : Inv t c.data) (hparts : FromClients t c.data requests n)
    (h : (sections t).outline.Holds c) (hempty : c.data.queue.contents = [])
    (hx : x ∈ c.data.enqueued) (hclient : x.1 < t.clients) :
    ∃ w, t.isWorker w ∧ c.data.dequeued.filter (fun y => y.2 = x.2) = [(w, x.2)] := by
  have hid := hinv.id_pos (mem_produced h hx hclient)
  have hmem : x ∈ requests := by
    rw [hparts.parts] at hx
    rcases mem_append.1 hx with hx | hx
    · exact hx
    · have hmain := congrArg Prod.fst (eq_of_mem_replicate hx)
      rw [hmain, Team.main] at hclient
      omega
  have hrequests : (requests.map Prod.snd).count x.2 = 1 :=
    count_eq_one_of_mem (hparts.nodup h) (mem_map_of_mem hmem)
  have hshutdown : (replicate n shutdown).count x.2 = 0 := by
    rw [count_eq_zero]
    intro hr
    rw [eq_of_mem_replicate hr] at hid
    exact absurd hid (by decide)
  have hcount : (c.data.dequeued.map Prod.snd).count x.2 = 1 := by
    have horder := hinv.order
    rw [hempty, append_nil] at horder
    rw [← horder, map_snd_enqueued hparts, count_append, hrequests, hshutdown]
  have hlength : (c.data.dequeued.filter fun y => y.2 = x.2).length = 1 := by
    rw [← hcount, count, countP_map, countP_eq_length_filter]
    congr 2
  rcases length_eq_one_iff.1 hlength with ⟨⟨w, r⟩, hone⟩
  have hy : (w, r) ∈ c.data.dequeued.filter fun y => y.2 = x.2 := by
    rw [hone]
    exact mem_singleton_self _
  rw [mem_filter, decide_eq_true_eq] at hy
  obtain rfl : r = x.2 := hy.2
  exact ⟨w, hinv.takers _ hy.1, hone⟩

/-- In every run the indices of the ring are in step and requests are dequeued in the order in which
they were enqueued; when all workers have returned, every client has enqueued its requests, each of
them was dequeued by one worker, once, every worker got one shutdown request, and the queue is
empty. -/
theorem requests_are_delivered (t : Team) (schedule : List (Nat × Choice))
    (c : Config Mutex Shared Pc) (h : run (code t) init schedule = some c) :
    (c.data.queue.back : Nat) = (c.data.queue.front + c.data.queue.count) % QUEUE_SIZE ∧
      c.data.queue.count ≤ QUEUE_SIZE ∧
        c.data.dequeued.map Prod.snd <+: c.data.enqueued.map Prod.snd ∧
      (0 < t.workers → WorkersDone t c →
        (∀ th < t.clients, (requestsOf th c.data.enqueued).map Request.text =
          (range REQUESTS_PER_CLIENT).map (clientText th)) ∧
            (∀ x ∈ c.data.enqueued, x.1 < t.clients →
          ∃ w, t.isWorker w ∧ c.data.dequeued.filter (fun y => y.2 = x.2) = [(w, x.2)]) ∧
        (∀ w, t.isWorker w → (requestsOf w c.data.dequeued).countP isShutdown = 1) ∧
        c.data.queue.count = 0) := by
  have hholds := run_holds h
  have hinv : Inv t c.data := hholds.inv
  refine ⟨?_, hinv.inStep.count_le, ⟨_, hinv.order.symm⟩, fun hpos hdone => ?_⟩
  · rw [hinv.inStep.back, Ring.val_index]
  · rcases hinv.parts with ⟨requests, n, hlog, hclients, hfinished⟩
    have hparts : FromClients t c.data requests n := ⟨hlog, hclients, hfinished⟩
    rcases hdone.queue_empty hholds hpos hparts with ⟨rfl, hempty⟩
    refine ⟨fun th hth => ?_,
      fun x hx hx' => WorkersDone.dequeued_once hinv hparts hholds hempty hx hx',
      fun w hw => hdone.taken hholds hw, ?_⟩
    · -- the client has returned, with nothing in flight
      have hat : At t th c.data (c.pc th) := hholds.loc th
      have hreturned := (hat.client hth).active.1 (hfinished hpos th hth)
      rw [hreturned] at hat
      have hsent : requestsOf th c.data.produced = requestsOf th c.data.enqueued :=
        (hat.client hth).sent.trans (append_nil _)
      rw [← hsent]
      exact (hat.client hth).texts
    · rw [← Ring.length_contents, hempty]
      rfl

/-- A client and two workers, one of which waits for the first request. -/
def smallTeam : Team := ⟨1, 2⟩

def smallRun : List (Nat × Choice) :=
  (List.replicate 5 1 ++ List.replicate 53 0 ++ List.replicate 31 1 ++ List.replicate 16 3 ++
    List.replicate 7 1 ++ List.replicate 8 2).map fun th => (th, ⟨1, false⟩)

theorem requests_are_delivered_small : ∃ c, run (code smallTeam) init smallRun = some c ∧
    WorkersDone smallTeam c ∧
      (requestsOf 0 c.data.enqueued).map Request.text = (range 5).map (clientText 0) ∧
      (∀ x ∈ c.data.enqueued, x.1 < 1 →
        ∃ w, smallTeam.isWorker w ∧ c.data.dequeued.filter (fun y => y.2 = x.2) = [(w, x.2)]) ∧
      (∀ w, smallTeam.isWorker w → (requestsOf w c.data.dequeued).countP isShutdown = 1) ∧
      c.data.queue.count = 0 := by
  obtain ⟨c, hrun, hfirst, hsecond⟩ :
      ∃ c, run (code smallTeam) init smallRun = some c ∧ c.pc 1 = .workerDone ∧
        c.pc 2 = .workerDone :=
    exists_of_run _ (by decide +kernel)
  have hdone : WorkersDone smallTeam c := by
    rintro w ⟨hge, hlt⟩
    have hw : w = 1 ∨ w = 2 := by
      simp only [smallTeam, Team.main] at hge hlt
      omega
    rcases hw with rfl | rfl
    · exact hfirst
    · exact hsecond
  rcases requests_are_delivered smallTeam smallRun c hrun with ⟨-, -, -, hall⟩
  rcases hall (by decide) hdone with ⟨htexts, honce, hshutdowns, hempty⟩
  exact ⟨c, hrun, hdone, htexts 0 (by decide), honce, hshutdowns, hempty⟩

end SystemsLab.RequestQueue
