import SystemsLab.RequestQueue.Invariant

/-!
# What the steps keep

* `Effect` — what an act does: five acts change the queue or the logs, all others only move the
  thread or change who waits;
* `Effect.inv`, `Effect.establishes`, `Effect.frame` — an act keeps the invariant, leads to what is
  known at the next program point, and leaves alone what the other threads rely on.
-/

namespace SystemsLab.RequestQueue

open Concurrent WaitSet List

variable {t : Team} {th u : Nat} {i : Choice} {own : Mutex → Option Nat}
  {d d' : Shared} {p p' q : Pc}

/-- Only the waiting threads change. -/
structure Quiet (d d' : Shared) : Prop where
  queue : d'.queue = d.queue
  nextRequestId : d'.nextRequestId = d.nextRequestId
  finished : d'.finished = d.finished
  produced : d'.produced = d.produced
  enqueued : d'.enqueued = d.enqueued
  dequeued : d'.dequeued = d.dequeued

theorem Quiet.refl (d : Shared) : Quiet d d := ⟨rfl, rfl, rfl, rfl, rfl, rfl⟩

theorem Quiet.keeps (h : Quiet d d') (u : Nat) : Keeps u d d' where
  produced := by rw [h.produced]
  enqueued := by rw [h.enqueued]
  dequeued := by rw [h.dequeued]
  finished := by rw [h.finished]
  others := h.finished ▸ Subset.refl _

/-- The effect of an act. -/
inductive Effect (t : Team) (th : Nat) : Shared → Pc → Shared → Pc → Prop
  | produce (d : Shared) (iterator : Nat) : Effect t th d (.nextId iterator)
      { d with nextRequestId := d.nextRequestId + 1
               produced := d.produced ++ [(th, ⟨d.nextRequestId, clientText th iterator⟩)] }
      (.idUnlock iterator d.nextRequestId)
  | store (d : Shared) (r : Request) (k : Caller) : Effect t th d (.store r k)
      { d with queue := d.queue.push r, enqueued := d.enqueued ++ [(th, r)] } (.signalNotEmpty k)
  | fetch (d : Shared) : Effect t th d .fetch
      { d with queue := d.queue.pop, dequeued := d.dequeued ++ [(th, d.queue.first)] }
      (.signalNotFull d.queue.first)
  | clientReturn (d : Shared) :
      Effect t th d .clientReturn { d with finished := th :: d.finished } .clientDone
  | workerReturn (d : Shared) :
      Effect t th d .workerReturn { d with finished := th :: d.finished } .workerDone
  | quiet {d d' : Shared} {p p' : Pc} : Quiet d d' → within p' = within p →
      (Inv t d → At t th d p → At t th d p') → Effect t th d p d' p'

theorem Effect.move (hquiet : Quiet d d') (hwithin : within p' = within p)
    (halike : Alike t th d p p')
    (hready : ready d p') : Effect t th d p d' p' := .quiet hquiet hwithin fun _ h =>
    h.move halike hready

theorem alike_of_eq (hplays : plays t th p → plays t th p') (hbound : bound t p → bound t p')
    (hprogress : progress t th p' = progress t th p) (hjoined : joined t p' = joined t p)
    (hp : p ≠ .clientDone) (hp' : p' ≠ .clientDone) : Alike t th d p p' :=
  ⟨hplays, hbound, hprogress, fun _ hu _ => .inl (hjoined ▸ hu),
    ⟨fun heq => absurd heq hp', fun heq => absurd heq hp⟩⟩

theorem Effect.same (hquiet : Quiet d d') (hwithin : within p' = within p)
    (hplays : plays t th p → plays t th p') (hbound : bound t p → bound t p')
    (hprogress : progress t th p' = progress t th p) (hjoined : joined t p' = joined t p)
    (hp : p ≠ .clientDone) (hp' : p' ≠ .clientDone) (hready : ready d p') : Effect t th d p d' p' :=
  .move hquiet hwithin (alike_of_eq hplays hbound hprogress hjoined hp hp') hready

variable {f : Nat → Choice → (Mutex → Option Nat) → Shared → Option (Shared × Pc)} {iterator : Nat}
  {r : Request}

section

variable (h : f th i own d = some (d', p'))

include h

theorem effect_start (hcode : code t .start = .act f) : Effect t th d .start d' p' := by
  cases hcode
  dsimp only at h
  split_ifs at h with hclient hworker hmain
  · cases h
    exact .same (.refl d) rfl (fun _ => hclient) (fun _ => Nat.zero_le _) rfl rfl
      nofun nofun trivial
  · cases h
    exact .same (.refl d) rfl (fun _ => ⟨not_lt.1 hclient, hworker⟩) (fun _ => trivial) rfl rfl
      nofun nofun trivial
  · cases h
    exact .same (.refl d) rfl (fun _ => hmain) (fun _ => trivial) rfl rfl nofun nofun trivial

theorem effect_joinClients (hcode : code t (.joinClients iterator) = .act f) :
    Effect t th d (.joinClients iterator) d' p' := by
  cases hcode
  dsimp only [join] at h
  split_ifs at h with hmore hfinished
  · cases h
    refine .move (.refl d) rfl ⟨id, fun _ => trivial, rfl, fun u hu _ => ?_, ⟨nofun, nofun⟩⟩ trivial
    rcases Nat.lt_succ_iff_lt_or_eq.1 hu with hlt | rfl
    · exact .inl hlt
    · exact .inr hfinished
  · cases h
    refine .move (.refl d) rfl ⟨id, fun _ => Nat.zero_le _, rfl, fun u _ hu => ?_,
      ⟨nofun, nofun⟩⟩ trivial
    exact .inl (hu.trans_le (not_lt.1 hmore))

theorem effect_sendShutdown (hcode : code t (.sendShutdown iterator) = .act f) :
    Effect t th d (.sendShutdown iterator) d' p' := by
  cases hcode
  split_ifs at h with hmore
  · cases h
    exact .same (.refl d) rfl id (fun _ => ⟨hmore, rfl⟩) rfl rfl nofun nofun trivial
  · cases h
    refine .quiet (.refl d) rfl fun _ hat => ?_
    -- the loop ends with the counter at its bound
    have hle : iterator ≤ t.workers := hat.bound
    have hend : t.workers = iterator := by omega
    exact hat.move (alike_of_eq id (fun _ => trivial) (progress_eq_iff.2 ⟨rfl, rfl, hend, rfl⟩) rfl
      nofun nofun) trivial

theorem effect_client (hcode : code t (.client iterator) = .act f) :
    Effect t th d (.client iterator) d' p' := by
  cases hcode
  split_ifs at h with hmore
  · cases h
    exact .same (.refl d) rfl id (fun _ => hmore) rfl rfl nofun nofun trivial
  · cases h
    refine .quiet (.refl d) rfl fun _ hat => ?_
    have hle : iterator ≤ REQUESTS_PER_CLIENT := hat.bound
    have hend : REQUESTS_PER_CLIENT = iterator := by omega
    exact hat.move (alike_of_eq id (fun _ => trivial) (progress_eq_iff.2 ⟨hend, rfl, rfl, rfl⟩) rfl
      nofun nofun) trivial

theorem effect_of_act (hcode : code t p = .act f) : Effect t th d p d' p' := by
  cases p with
  | start => exact effect_start h hcode
  | client iterator => exact effect_client h hcode
  | joinClients iterator => exact effect_joinClients h hcode
  | sendShutdown iterator => exact effect_sendShutdown h hcode
  | enqueueTest r k =>
    cases hcode
    dsimp only at h
    split_ifs at h with hfull
    · cases h
      exact .same (.refl d) rfl id id rfl rfl nofun nofun trivial
    · cases h
      refine .quiet (.refl d) rfl fun hinv hat => ?_
      have hroom : d.queue.count < QUEUE_SIZE := lt_of_le_of_ne hinv.inStep.count_le hfull
      exact hat.move (alike_of_eq id id rfl rfl nofun nofun) hroom
  | dequeueTest =>
    cases hcode
    dsimp only at h
    split_ifs at h with hempty
    · cases h
      exact .same (.refl d) rfl id id rfl rfl nofun nofun trivial
    · cases h
      exact .quiet (.refl d) rfl fun _ hat =>
        hat.move (alike_of_eq id id rfl rfl nofun nofun) hempty
  | request iterator number =>
    cases hcode
    cases h
    exact .same (.refl d) rfl id (fun hbound => ⟨hbound, trivial⟩) rfl rfl nofun nofun trivial
  | notFullWait r k | notEmptyWait =>
    cases hcode
    cases h
    exact .same ⟨rfl, rfl, rfl, rfl, rfl, rfl⟩ rfl id id rfl rfl nofun nofun trivial
  | notFullBlocked r k | signalNotFull r | signalNotEmpty k | notEmptyBlocked =>
    cases hcode
    rcases Option.map_eq_some_iff.1 h with ⟨w, -, heq⟩
    cases heq
    exact .same ⟨rfl, rfl, rfl, rfl, rfl, rfl⟩ rfl id id rfl rfl nofun nofun trivial
  | store r k | fetch | nextId iterator | clientReturn | workerReturn =>
    cases hcode
    cases h
    constructor
  | received r =>
    cases hcode
    split_ifs at h with hshutdown
    · cases h
      exact .same (.refl d) rfl id id (progress_eq_iff.2 ⟨rfl, rfl, rfl, (if_pos hshutdown).symm⟩)
        rfl nofun nofun trivial
    · cases h
      exact .same (.refl d) rfl id id (progress_eq_iff.2 ⟨rfl, rfl, rfl, (if_neg hshutdown).symm⟩)
        rfl nofun nofun trivial
  | joinWorkers iterator =>
    cases hcode
    dsimp only [join] at h
    split_ifs at h
    all_goals
      cases h
      exact .same (.refl d) rfl id id rfl rfl nofun nofun trivial
  | clientDone | workerDone | mainDone =>
    cases hcode
    cases h
  | _ => cases hcode

end

theorem Effect.within_eq (h : Effect t th d p d' p') : within p' = within p := by
  cases h with
  | quiet _ hwithin => exact hwithin
  | _ => rfl

/-! ## The invariant -/

theorem Inv.quiet (h : Inv t d) (hquiet : Quiet d d') : Inv t d' where
  inStep := by
    rw [hquiet.queue]
    exact h.inStep
  order := by
    rw [hquiet.enqueued, hquiet.dequeued, hquiet.queue]
    exact h.order
  numbered := by
    rw [hquiet.produced]
    exact h.numbered
  next := by
    rw [hquiet.nextRequestId, hquiet.produced]
    exact h.next
  makers := by
    rw [hquiet.produced]
    exact h.makers
  parts := by
    rw [hquiet.enqueued, hquiet.finished]
    exact h.parts
  takers := by
    rw [hquiet.dequeued]
    exact h.takers

theorem Inv.produce (h : Inv t d) (hth : th < t.clients) (text : CBuf MAX_TEXT) :
    Inv t { d with nextRequestId := d.nextRequestId + 1
                   produced := d.produced ++ [(th, ⟨d.nextRequestId, text⟩)] } :=
  { h with
    numbered := by
      have hnext := h.next
      rw [map_append, h.numbered, length_append, length_singleton, range_succ,
        map_append, map_singleton, map_singleton, hnext]
    next := by
      have hnext := h.next
      dsimp only
      rw [length_append, length_singleton]
      omega
    makers := forall_mem_append.2 ⟨h.makers, forall_mem_singleton.2 hth⟩ }

theorem Inv.store (h : Inv t d) (hroom : d.queue.count < QUEUE_SIZE)
    (hfrom : th < t.clients ∧ th ∉ d.finished ∨ th = t.main ∧ r = shutdown ∧ ∀ u < t.clients,
      u ∈ d.finished) :
    Inv t { d with queue := d.queue.push r, enqueued := d.enqueued ++ [(th, r)] } :=
  { h with
    inStep := Ring.push_inStep h.inStep hroom r
    order := by
      rw [map_append, h.order, Ring.contents_push h.inStep hroom, append_assoc]
      rfl
    parts := by
      rcases h.parts with ⟨requests, n, hparts, hclients, hfinished⟩
      rcases hfrom with ⟨hth, hactive⟩ | ⟨rfl, rfl, hall⟩
      · -- as long as a client is active, there is no shutdown request
        obtain rfl : n = 0 := by
          by_contra hn
          exact hactive (hfinished (Nat.pos_of_ne_zero hn) th hth)
        refine ⟨requests ++ [(th, r)], 0, ?_,
          forall_mem_append.2 ⟨hclients, forall_mem_singleton.2 hth⟩, nofun⟩
        rw [hparts]
        simp
      · refine ⟨requests, n + 1, ?_, hclients, fun _ => hall⟩
        rw [hparts, append_assoc, replicate_succ'] }

theorem Inv.fetch (h : Inv t d) (hsome : d.queue.count ≠ 0) (hth : t.isWorker th) :
    Inv t { d with queue := d.queue.pop, dequeued := d.dequeued ++ [(th, d.queue.first)] } :=
  { h with
    inStep := Ring.pop_inStep h.inStep hsome
    order := by
      rw [h.order, Ring.contents_pop hsome, map_append, append_assoc]
      rfl
    takers := forall_mem_append.2 ⟨h.takers, forall_mem_singleton.2 hth⟩ }

theorem Inv.finish (h : Inv t d) (th : Nat) : Inv t { d with finished := th :: d.finished } :=
  { h with
    parts := by
      rcases h.parts with ⟨requests, n, hparts, hclients, hfinished⟩
      exact ⟨requests, n, hparts, hclients, fun hn u hu => mem_cons_of_mem _ (hfinished hn u hu)⟩ }

theorem At.stores {k : Caller} (hat : At t th d (.store r k)) :
    th < t.clients ∧ th ∉ d.finished ∨ th = t.main ∧ r = shutdown ∧ ∀ u < t.clients,
      u ∈ d.finished := by
  cases k with
  | client iterator =>
    have hth : th < t.clients := hat.plays
    refine .inl ⟨hth, fun hmem => ?_⟩
    exact absurd ((hat.client hth).active.1 hmem) nofun
  | main iterator =>
    have hth : th = t.main := hat.plays
    exact .inr ⟨hth, hat.bound.2, fun u hu => (hat.main hth).joins u hu hu⟩

theorem Effect.inv (h : Effect t th d p d' p') (hinv : Inv t d) (hat : At t th d p) : Inv t d' := by
  cases h with
  | quiet hquiet => exact hinv.quiet hquiet
  | produce iterator => exact hinv.produce hat.plays _
  | store r k => exact hinv.store hat.ready hat.stores
  | fetch => exact hinv.fetch hat.ready hat.plays
  | clientReturn | workerReturn => exact hinv.finish th

/-! ## Other threads -/

theorem keeps_finish (hu : u ≠ th) : Keeps u d { d with finished := th :: d.finished } where
  produced := rfl
  enqueued := rfl
  dequeued := rfl
  finished := by
    rw [mem_cons]
    exact or_iff_right hu
  others := subset_cons_self _ _

theorem Effect.keeps (h : Effect t th d p d' p') (hu : u ≠ th) : Keeps u d d' := by
  cases h with
  | quiet hquiet => exact hquiet.keeps u
  | produce iterator => exact ⟨requestsOf_append_other hu, rfl, rfl, Iff.rfl, Subset.refl _⟩
  | store r k => exact ⟨rfl, requestsOf_append_other hu, rfl, Iff.rfl, Subset.refl _⟩
  | fetch => exact ⟨rfl, rfl, requestsOf_append_other hu, Iff.rfl, Subset.refl _⟩
  | clientReturn | workerReturn => exact keeps_finish hu

theorem Effect.queue_eq (h : Effect t th d p d' p') (hp : within p ≠ some .queue) :
    d'.queue = d.queue := by
  cases h with
  | quiet hquiet => exact hquiet.queue
  | produce | clientReturn | workerReturn => rfl
  | store | fetch => exact absurd rfl hp

theorem Effect.frame (h : Effect t th d p d' p') (hu : u ≠ th)
    (hdisjoint : ∀ m, within p = some m → within q ≠ some m) (hat : At t u d q) : At t u d' q := by
  refine hat.frame (h.keeps hu) fun hq => ?_
  rw [h.queue_eq fun hp => hdisjoint _ hp hq]

/-! ## The thread itself -/

theorem At.produce (h : At t th d (.nextId iterator)) :
    At t th { d with nextRequestId := d.nextRequestId + 1
                     produced := d.produced ++ [(th, ⟨d.nextRequestId, clientText th iterator⟩)] }
      (.idUnlock iterator d.nextRequestId) where
  plays := h.plays
  bound := h.bound
  client hth := by
    rcases h.client hth with ⟨htexts, hsent, hactive⟩
    refine ⟨?_, ?_, hactive.trans ⟨nofun, nofun⟩⟩
    · rw [requestsOf_append, requestsOf_self, map_append, htexts, drawn, drawn,
        range_succ, map_append]
      rfl
    · rw [requestsOf_append, requestsOf_self, hsent]
      exact congrArg (· ++ _) (append_nil _)
  worker := h.worker
  main hth := ⟨(h.main hth).sent, (h.main hth).joins⟩
  ready := trivial

theorem At.store {k : Caller} (h : At t th d (.store r k)) :
    At t th { d with queue := d.queue.push r, enqueued := d.enqueued ++ [(th, r)] }
      (.signalNotEmpty k) where
  plays := h.plays
  bound := h.bound.1
  client hth := by
    rcases h.client hth with ⟨htexts, hsent, hactive⟩
    refine ⟨htexts, ?_, hactive.trans ⟨nofun, nofun⟩⟩
    cases k with
    | client iterator =>
      rw [hsent]
      simp [inFlight, Caller.inFlight]
    | main iterator =>
      -- `main` is not a client
      have hmain : th = t.main := h.plays
      rw [Team.main] at hmain
      omega
  worker := h.worker
  main hth := by
    rcases h.main hth with ⟨hsent, hjoins⟩
    refine ⟨?_, hjoins⟩
    cases k with
    | client iterator =>
      have hclient : th < t.clients := h.plays
      rw [Team.main] at hth
      omega
    | main iterator =>
      have hr : r = shutdown := h.bound.2
      rw [hth, hr, requestsOf_append, requestsOf_self, hsent]
      exact replicate_succ'.symm
  ready := trivial

theorem At.fetch (h : At t th d .fetch) :
    At t th { d with queue := d.queue.pop, dequeued := d.dequeued ++ [(th, d.queue.first)] }
      (.signalNotFull d.queue.first) where
  plays := h.plays
  bound := trivial
  client hth := by
    rcases h.client hth with ⟨htexts, hsent, hactive⟩
    exact ⟨htexts, hsent, hactive.trans ⟨nofun, nofun⟩⟩
  worker hth := by
    have htaken := h.worker hth
    rw [requestsOf_append, countP_append, htaken]
    simp [taken]
  main hth := ⟨(h.main hth).sent, (h.main hth).joins⟩
  ready := trivial

theorem At.finish (h : At t th d p) (hplays : RequestQueue.plays t th p')
    (hbound : RequestQueue.bound t p')
    (hprogress : progress t th p' = progress t th p) (hjoined : joined t p' = joined t p)
    (hdone : th < t.clients → p' = .clientDone) (hready : RequestQueue.ready d p') :
    At t th { d with finished := th :: d.finished } p' := by
  rcases progress_eq_iff.1 hprogress with ⟨hdrawn, hinFlight, hsentBy, htaken⟩
  refine ⟨hplays, hbound, fun hth => ?_, fun hth => ?_, fun hth => ?_, ?_⟩
  · rcases h.client hth with ⟨htexts, hsent, -⟩
    exact ⟨by rw [hdrawn, htexts], by rw [hinFlight, hsent],
      ⟨fun _ => hdone hth, fun _ => mem_cons_self⟩⟩
  · rw [htaken]
    exact h.worker hth
  · rcases h.main hth with ⟨hsent, hjoins⟩
    refine ⟨by rw [hsentBy, hsent], ?_⟩
    rw [hjoined]
    exact fun u hu hclient => mem_cons_of_mem _ (hjoins u hu hclient)
  · cases p' with
    | store r k | fetch => exact hready
    | _ => trivial

theorem Effect.establishes (h : Effect t th d p d' p') (hinv : Inv t d) (hat : At t th d p) :
    At t th d' p' := by
  cases h with
  | quiet hquiet _ hmove =>
    refine (hmove hinv hat).frame (hquiet.keeps th) fun _ => ?_
    rw [hquiet.queue]
  | produce iterator => exact hat.produce
  | store r k => exact hat.store
  | fetch => exact hat.fetch
  | clientReturn => exact hat.finish hat.plays trivial rfl rfl (fun _ => rfl) trivial
  | workerReturn =>
    have hworker : t.isWorker th := hat.plays
    exact hat.finish hat.plays trivial rfl rfl (fun hth => absurd hth (not_lt.2 hworker.1)) trivial

/-! ## Mutex operations -/

theorem lock_cases (th : Nat) (d : Shared) {m : Mutex} {mark : Nat → Shared → Shared} {next : Pc}
    (hcode : code t p = .lock m mark next) :
    mark = noMark ∧ within p = none ∧ within next = some m ∧ Alike t th d p next ∧
      ready d next := by
  cases p with
  | enqueueLock r k | idLock iterator | dequeueLock =>
    cases hcode
    exact ⟨rfl, rfl, rfl, alike_of_eq id id rfl rfl nofun nofun, trivial⟩
  | _ => cases hcode

theorem unlock_cases (th : Nat) (d : Shared) {m : Mutex} {next : Pc}
    (hcode : code t p = .unlock m next) :
    within p = some m ∧ within next = none ∧ Alike t th d p next ∧ ready d next := by
  cases p with
  | notFullRelease r k | dequeueUnlock r | idUnlock iterator number | notEmptyRelease =>
    cases hcode
    exact ⟨rfl, rfl, alike_of_eq id id rfl rfl nofun nofun, trivial⟩
  | enqueueUnlock k =>
    cases hcode
    cases k with
    | client iterator | main iterator =>
      exact ⟨rfl, rfl, alike_of_eq id Nat.succ_le_of_lt rfl rfl nofun nofun, trivial⟩
  | _ => cases hcode

/-- The invariant and what is known of the threads, in every run. -/
def sections (t : Team) : Sections (code t) (fun _ _ _ _ => True) where
  within := within
  inv := Inv t
  loc := At t
  lock_within hcode := by
    rcases lock_cases 0 initial hcode with ⟨-, hp, hnext, -⟩
    exact ⟨hp, hnext⟩
  unlock_within hcode := by
    rcases unlock_cases 0 initial hcode with ⟨hp, hnext, -⟩
    exact ⟨hp, hnext⟩
  act_within hcode hf := (effect_of_act hf hcode).within_eq
  lock_loc := by
    intro th d p m mark next hcode hinv hat
    rcases lock_cases th d hcode with ⟨rfl, -, -, halike, hready⟩
    exact ⟨hinv, hat.move halike hready⟩
  lock_frame := by
    intro th d p m mark next u q hcode _ _ _ _ hat
    rcases lock_cases u d hcode with ⟨rfl, -⟩
    exact hat
  unlock_loc := by
    intro th d p m next hcode _ hat
    rcases unlock_cases th d hcode with ⟨-, -, halike, hready⟩
    exact hat.move halike hready
  act_loc hcode _ hf hinv hat := by
    have heffect := effect_of_act hf hcode
    exact ⟨heffect.inv hinv hat, heffect.establishes hinv hat⟩
  act_frame hcode _ hf _ _ hu hdisjoint hat := (effect_of_act hf hcode).frame hu hdisjoint hat

theorem init_holds (t : Team) : (sections t).outline.Holds init := by
  refine Sections.start_holds rfl ?_ fun th => ?_
  · exact ⟨Ring.empty_inStep _, rfl, rfl, rfl, nofun, ⟨[], 0, rfl, nofun, nofun⟩, nofun⟩
  · exact ⟨trivial, trivial, fun _ => ⟨rfl, rfl, ⟨nofun, nofun⟩⟩, fun _ => rfl,
      fun _ => ⟨rfl, nofun⟩, trivial⟩

theorem run_holds {schedule : List (Nat × Choice)} {c : Config Mutex Shared Pc}
    (h : run (code t) init schedule = some c) : (sections t).outline.Holds c :=
  Outline.run_holds (init_holds t) (meets_of_forall (fun _ _ _ _ => trivial) _ _) h

end SystemsLab.RequestQueue
