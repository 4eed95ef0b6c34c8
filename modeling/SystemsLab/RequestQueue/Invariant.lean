import SystemsLab.CLib.CString
import SystemsLab.Concurrent.Outline
import SystemsLab.Data.Ring

/-!
# The request queue of `pthread_db.c`

Clients put numbered requests into a ring of eight, workers take them out.  When all clients have
returned, `main` puts one request with the number -1 into the queue for each worker, and a worker
that takes one of these returns.

* `Shared` — the queue, the threads that wait on its condition variables, the next number and the
  threads that have returned, with three ghost lists: what was produced, enqueued and dequeued, and
  by whom;
* `code` — `enqueue`, `dequeue`, `client_thread`, `worker_thread` and the part of `main` after the
  threads are created;
* `Inv` — what was enqueued is what was dequeued followed by what is in the queue, and the requests
  of `main` come behind those of the clients;
* `At` — how far a thread is: how many requests a client has produced and which one it has not
  enqueued yet, how many shutdown requests `main` has sent, and whether a worker has taken one.

Threads `0, …, clients - 1` are the clients, the next `workers` threads are the workers, and the one
after them is `main`.  The messages and the pauses are left out.
-/

namespace SystemsLab.RequestQueue

open Concurrent WaitSet

/-! ## Data -/

def QUEUE_SIZE : Nat := 8

def REQUESTS_PER_CLIENT : Nat := 5

def MAX_TEXT : Nat := 64

instance neZeroQueueSize : NeZero QUEUE_SIZE := ⟨by decide⟩

instance neZeroMaxText : NeZero MAX_TEXT := ⟨by decide⟩

structure Request where
  id : Int
  text : CBuf MAX_TEXT
  deriving DecidableEq

def shutdown : Request := ⟨-1, .empty⟩

/-- `snprintf(req.text, MAX_TEXT, "Client %d request #%d", client_id, iterator + 1)`; the
identifiers of the clients count from 1. -/
def clientText (th iterator : Nat) : CBuf MAX_TEXT :=
  .copy (.ofLiteral ("Client " ++ toString (th + 1) ++ " request #" ++ toString (iterator + 1)))

structure Shared where
  queue : Ring Request QUEUE_SIZE
  notEmpty : List Nat
  notFull : List Nat
  nextRequestId : Int
  /-- The threads that have returned, for `pthread_join`. -/
  finished : List Nat
  /-- The requests of the clients, in the order of their numbers. -/
  produced : List (Nat × Request)
  enqueued : List (Nat × Request)
  dequeued : List (Nat × Request)

/-- The static data; an array of zeros holds requests without text. -/
def initial : Shared := ⟨.empty ⟨0, .empty⟩, [], [], 1, [], [], [], []⟩

/-- `MAX_CLIENTS` and `WORKER_COUNT` -/
structure Team where
  clients : Nat
  workers : Nat

namespace Team

def main (t : Team) : Nat := t.clients + t.workers

def isWorker (t : Team) (th : Nat) : Prop := t.clients ≤ th ∧ th < t.main

end Team

/-! ## Program -/

inductive Mutex
  | queue
  | id
  deriving DecidableEq

/-- The loop that has called `enqueue`. -/
inductive Caller
  | client (iterator : Nat)
  | main (iterator : Nat)
  deriving DecidableEq

inductive Pc
  | start
  -- enqueue
  | enqueueLock (r : Request) (k : Caller)
  | enqueueTest (r : Request) (k : Caller)
  | notFullWait (r : Request) (k : Caller)
  | notFullRelease (r : Request) (k : Caller)
  | notFullBlocked (r : Request) (k : Caller)
  | store (r : Request) (k : Caller)
  | signalNotEmpty (k : Caller)
  | enqueueUnlock (k : Caller)
  -- dequeue
  | dequeueLock
  | dequeueTest
  | notEmptyWait
  | notEmptyRelease
  | notEmptyBlocked
  | fetch
  | signalNotFull (r : Request)
  | dequeueUnlock (r : Request)
  -- client_thread
  | client (iterator : Nat)
  | idLock (iterator : Nat)
  | nextId (iterator : Nat)
  | idUnlock (iterator : Nat) (id : Int)
  | request (iterator : Nat) (id : Int)
  | clientReturn
  | clientDone
  -- worker_thread
  | received (r : Request)
  | workerReturn
  | workerDone
  -- main
  | joinClients (iterator : Nat)
  | sendShutdown (iterator : Nat)
  | joinWorkers (iterator : Nat)
  | mainDone
  deriving DecidableEq

/-- `pthread_join` for thread `th`. -/
def join (th : Nat) (d : Shared) (next : Pc) : Option (Shared × Pc) :=
  if th ∈ d.finished then some (d, next) else none

/-- Where `enqueue` returns to. -/
def Caller.next : Caller → Pc
  | .client iterator => .client (iterator + 1)
  | .main iterator => .sendShutdown (iterator + 1)

def code (t : Team) : Pc → Instr Mutex Shared Pc Choice
  | .start => .act fun th _ _ d =>
    if th < t.clients then some (d, .client 0)
    else if th < t.main then some (d, .dequeueLock)
    else if th = t.main then some (d, .joinClients 0)
    else none
  -- enqueue
  | .enqueueLock r k => .lock .queue noMark (.enqueueTest r k)
  | .enqueueTest r k => .act fun _ _ _ d =>
    some (d, if d.queue.count = QUEUE_SIZE then .notFullWait r k else .store r k)
  | .notFullWait r k => .act fun th _ _ d =>
    some ({ d with notFull := d.notFull ++ [th] }, .notFullRelease r k)
  | .notFullRelease r k => .unlock .queue (.notFullBlocked r k)
  | .notFullBlocked r k => .act fun th c _ d =>
    (returns d.notFull th c.spurious).map fun w => ({ d with notFull := w }, .enqueueLock r k)
  | .store r k => .act fun th _ _ d =>
    some ({ d with queue := d.queue.push r, enqueued := d.enqueued ++ [(th, r)] },
      .signalNotEmpty k)
  | .signalNotEmpty k => .act fun _ c _ d =>
    (wakeOne d.notEmpty c.target).map fun w => ({ d with notEmpty := w }, .enqueueUnlock k)
  | .enqueueUnlock k => .unlock .queue k.next
  -- dequeue
  | .dequeueLock => .lock .queue noMark .dequeueTest
  | .dequeueTest => .act fun _ _ _ d =>
    some (d, if d.queue.count = 0 then .notEmptyWait else .fetch)
  | .notEmptyWait => .act fun th _ _ d =>
    some ({ d with notEmpty := d.notEmpty ++ [th] }, .notEmptyRelease)
  | .notEmptyRelease => .unlock .queue .notEmptyBlocked
  | .notEmptyBlocked => .act fun th c _ d =>
    (returns d.notEmpty th c.spurious).map fun w => ({ d with notEmpty := w }, .dequeueLock)
  | .fetch => .act fun th _ _ d =>
    some ({ d with queue := d.queue.pop, dequeued := d.dequeued ++ [(th, d.queue.first)] },
      .signalNotFull d.queue.first)
  | .signalNotFull r => .act fun _ c _ d =>
    (wakeOne d.notFull c.target).map fun w => ({ d with notFull := w }, .dequeueUnlock r)
  | .dequeueUnlock r => .unlock .queue (.received r)
  -- client_thread
  | .client iterator => .act fun _ _ _ d =>
    some (d, if iterator < REQUESTS_PER_CLIENT then .idLock iterator else .clientReturn)
  | .idLock iterator => .lock .id noMark (.nextId iterator)
  | .nextId iterator => .act fun th _ _ d =>
    some ({ d with nextRequestId := d.nextRequestId + 1
                   produced := d.produced ++ [(th, ⟨d.nextRequestId, clientText th iterator⟩)] },
      .idUnlock iterator d.nextRequestId)
  | .idUnlock iterator id => .unlock .id (.request iterator id)
  | .request iterator id => .act fun th _ _ d =>
    some (d, .enqueueLock ⟨id, clientText th iterator⟩ (.client iterator))
  | .clientReturn => .act fun th _ _ d =>
    some ({ d with finished := th :: d.finished }, .clientDone)
  | .clientDone => .act fun _ _ _ _ => none
  -- worker_thread
  | .received r => .act fun _ _ _ d => some (d, if r.id = -1 then .workerReturn else .dequeueLock)
  | .workerReturn => .act fun th _ _ d =>
    some ({ d with finished := th :: d.finished }, .workerDone)
  | .workerDone => .act fun _ _ _ _ => none
  -- main
  | .joinClients iterator => .act fun _ _ _ d =>
    if iterator < t.clients then join iterator d (.joinClients (iterator + 1))
    else some (d, .sendShutdown 0)
  | .sendShutdown iterator => .act fun _ _ _ d =>
    some (d, if iterator <
      t.workers then .enqueueLock shutdown (.main iterator) else .joinWorkers 0)
  | .joinWorkers iterator => .act fun _ _ _ d =>
    if iterator < t.workers then join (t.clients + iterator) d (.joinWorkers (iterator + 1))
    else some (d, .mainDone)
  | .mainDone => .act fun _ _ _ _ => none

def init : Config Mutex Shared Pc := Config.start initial .start

def requestsOf (th : Nat) (log : List (Nat × Request)) : List Request :=
  (log.filter fun x => x.1 = th).map Prod.snd

@[simp] theorem requestsOf_append (th : Nat) (log log' : List (Nat × Request)) :
    requestsOf th (log ++ log') = requestsOf th log ++ requestsOf th log' := by
  simp [requestsOf]

@[simp] theorem requestsOf_self (th : Nat) (r : Request) : requestsOf th [(th, r)] = [r] := by
  simp [requestsOf]

theorem requestsOf_append_other {th u : Nat} (h : u ≠ th) {log : List (Nat × Request)}
    {r : Request} :
    requestsOf u (log ++ [(th, r)]) = requestsOf u log := by
  simp [requestsOf, Ne.symm h]

/-! ## Program points -/

def within : Pc → Option Mutex
  | .enqueueTest _ _ | .notFullWait _ _ | .notFullRelease _ _ | .store _ _ => some .queue
  | .signalNotEmpty _ | .enqueueUnlock _ => some .queue
  | .dequeueTest | .notEmptyWait | .notEmptyRelease | .fetch => some .queue
  | .signalNotFull _ | .dequeueUnlock _ => some .queue
  | .nextId _ | .idUnlock _ _ => some .id
  | _ => none

namespace Caller

/-- The number of requests that the client has produced when it calls `enqueue`. -/
def drawn : Caller → Nat
  | .client iterator => iterator + 1
  | .main _ => 0

/-- The request of a client that is not in the queue yet. -/
def inFlight (r : Request) : Caller → List Request
  | .client _ => [r]
  | .main _ => []

/-- The number of shutdown requests in front of this call. -/
def sent : Caller → Nat
  | .client _ => 0
  | .main iterator => iterator

/-- The same, and this one. -/
def sentNow : Caller → Nat
  | .client _ => 0
  | .main iterator => iterator + 1

def isCaller (t : Team) (th : Nat) : Caller → Prop
  | .client _ => th < t.clients
  | .main _ => th = t.main

/-- What the loops of the callers have tested. -/
def bound (t : Team) : Caller → Prop
  | .client iterator => iterator < REQUESTS_PER_CLIENT
  | .main iterator => iterator < t.workers

/-- `main` sends shutdown requests only. -/
def sends (r : Request) : Caller → Prop
  | .client _ => True
  | .main _ => r = shutdown

/-- `main` calls `enqueue` behind its joins. -/
def isMain : Caller → Bool
  | .client _ => false
  | .main _ => true

end Caller

/-- The function of the thread. -/
def plays (t : Team) (th : Nat) : Pc → Prop
  | .start => True
  | .enqueueLock _ k | .enqueueTest _ k | .notFullWait _ k | .notFullRelease _ k => k.isCaller t th
  | .notFullBlocked _ k | .store _ k | .signalNotEmpty k | .enqueueUnlock k => k.isCaller t th
  | .client _ | .idLock _ | .nextId _ | .idUnlock _ _ | .request _ _ => th < t.clients
  | .clientReturn | .clientDone => th < t.clients
  | .joinClients _ | .sendShutdown _ | .joinWorkers _ | .mainDone => th = t.main
  | _ => t.isWorker th

/-- The number of requests that a client has produced. -/
def drawn : Pc → Nat
  | .client iterator | .idLock iterator | .nextId iterator => iterator
  | .idUnlock iterator _ | .request iterator _ => iterator + 1
  | .enqueueLock _ k | .enqueueTest _ k | .notFullWait _ k | .notFullRelease _ k => k.drawn
  | .notFullBlocked _ k | .store _ k | .signalNotEmpty k | .enqueueUnlock k => k.drawn
  | .clientReturn | .clientDone => REQUESTS_PER_CLIENT
  | _ => 0

/-- The request that a client has produced and not enqueued. -/
def inFlight (th : Nat) : Pc → List Request
  | .idUnlock iterator id | .request iterator id => [⟨id, clientText th iterator⟩]
  | .enqueueLock r k | .enqueueTest r k | .notFullWait r k | .notFullRelease r k => k.inFlight r
  | .notFullBlocked r k | .store r k => k.inFlight r
  | _ => []

/-- The number of shutdown requests that `main` has sent. -/
def sentBy (t : Team) : Pc → Nat
  | .sendShutdown iterator => iterator
  | .enqueueLock _ k | .enqueueTest _ k | .notFullWait _ k | .notFullRelease _ k => k.sent
  | .notFullBlocked _ k | .store _ k => k.sent
  | .signalNotEmpty k | .enqueueUnlock k => k.sentNow
  | .joinWorkers _ | .mainDone => t.workers
  | _ => 0

/-- The number of shutdown requests that a worker has taken. -/
def taken : Pc → Nat
  | .signalNotFull r | .dequeueUnlock r | .received r => if r.id = -1 then 1 else 0
  | .workerReturn | .workerDone => 1
  | _ => 0

/-- What the tests of the loops say about their counters. -/
def bound (t : Team) : Pc → Prop
  | .client iterator => iterator ≤ REQUESTS_PER_CLIENT
  | .idLock iterator | .nextId iterator | .idUnlock iterator _ | .request iterator _ =>
    iterator < REQUESTS_PER_CLIENT
  | .enqueueLock r k | .enqueueTest r k | .notFullWait r k | .notFullRelease r k =>
    k.bound t ∧ k.sends r
  | .notFullBlocked r k | .store r k => k.bound t ∧ k.sends r
  | .signalNotEmpty k | .enqueueUnlock k => k.bound t
  | .sendShutdown iterator => iterator ≤ t.workers
  | _ => True

/-- The number of clients that `main` has joined. -/
def joined (t : Team) : Pc → Nat
  | .joinClients iterator => iterator
  | .sendShutdown _ | .joinWorkers _ | .mainDone => t.clients
  | .enqueueLock _ k | .enqueueTest _ k | .notFullWait _ k | .notFullRelease _ k =>
    if k.isMain then t.clients else 0
  | .notFullBlocked _ k | .store _ k | .signalNotEmpty k | .enqueueUnlock k =>
    if k.isMain then t.clients else 0
  | _ => 0

/-- How far a thread is. -/
def progress (t : Team) (th : Nat) (p : Pc) : Nat × List Request × Nat × Nat :=
  (drawn p, inFlight th p, sentBy t p, taken p)

/-- What the tests in `enqueue` and `dequeue` say about the queue. -/
def ready (d : Shared) : Pc → Prop
  | .store _ _ => d.queue.count < QUEUE_SIZE
  | .fetch => d.queue.count ≠ 0
  | _ => True

/-! ## The invariant -/

/-- What is known of the shared data at all times. -/
structure Inv (t : Team) (d : Shared) : Prop where
  inStep : d.queue.InStep
  order : d.enqueued.map Prod.snd = d.dequeued.map Prod.snd ++ d.queue.contents
  numbered : d.produced.map (fun x => x.2.id) =
    (List.range d.produced.length).map fun k : Nat => (k : Int) + 1
  next : d.nextRequestId = d.produced.length + 1
  makers : ∀ x ∈ d.produced, x.1 < t.clients
  parts : ∃ requests n, d.enqueued = requests ++ List.replicate n (t.main, shutdown) ∧
    (∀ x ∈ requests, x.1 < t.clients) ∧ (0 < n → ∀ u < t.clients, u ∈ d.finished)
  takers : ∀ x ∈ d.dequeued, t.isWorker x.1

/-- How far a client is. -/
structure ClientAt (th : Nat) (d : Shared) (p : Pc) : Prop where
  texts : (requestsOf th d.produced).map Request.text = (List.range (drawn p)).map (clientText th)
  sent : requestsOf th d.produced = requestsOf th d.enqueued ++ inFlight th p
  active : th ∈ d.finished ↔ p = .clientDone

/-- How far `main` is. -/
structure MainAt (t : Team) (d : Shared) (p : Pc) : Prop where
  sent : requestsOf t.main d.enqueued = List.replicate (sentBy t p) shutdown
  joins : ∀ u < joined t p, u < t.clients → u ∈ d.finished

/-- What is known of thread `th` at the program point `p`. -/
structure At (t : Team) (th : Nat) (d : Shared) (p : Pc) : Prop where
  plays : plays t th p
  bound : bound t p
  client : th < t.clients → ClientAt th d p
  worker : t.isWorker th → (requestsOf th d.dequeued).countP (·.id = -1) = taken p
  main : th = t.main → MainAt t d p
  ready : ready d p

variable {t : Team} {th u : Nat} {d d' : Shared} {p p' q : Pc}

/-- What a thread relies on. -/
structure Keeps (u : Nat) (d d' : Shared) : Prop where
  produced : requestsOf u d'.produced = requestsOf u d.produced
  enqueued : requestsOf u d'.enqueued = requestsOf u d.enqueued
  dequeued : requestsOf u d'.dequeued = requestsOf u d.dequeued
  finished : u ∈ d'.finished ↔ u ∈ d.finished
  others : d.finished ⊆ d'.finished

theorem At.frame (h : At t u d q) (hkeeps : Keeps u d d')
    (hqueue : within q = some .queue → d'.queue.count = d.queue.count) : At t u d' q where
  plays := h.plays
  bound := h.bound
  client hu := by
    rcases h.client hu with ⟨htexts, hsent, hactive⟩
    refine ⟨?_, ?_, hkeeps.finished.trans hactive⟩
    · rw [hkeeps.produced, htexts]
    · rw [hkeeps.produced, hkeeps.enqueued, hsent]
  worker hu := by
    rw [hkeeps.dequeued]
    exact h.worker hu
  main hu := by
    rcases h.main hu with ⟨hsent, hjoins⟩
    refine ⟨?_, fun v hv hclient => hkeeps.others (hjoins v hv hclient)⟩
    rw [← hu, hkeeps.enqueued, hu, hsent]
  ready := by
    cases q with
    | store r k | fetch =>
      rw [RequestQueue.ready, hqueue rfl]
      exact h.ready
    | _ => trivial

/-- Two program points at which a thread is equally far; `main` may have joined one more client. -/
structure Alike (t : Team) (th : Nat) (d : Shared) (p p' : Pc) : Prop where
  plays : plays t th p → plays t th p'
  bound : bound t p → bound t p'
  progress : progress t th p' = progress t th p
  joined : ∀ u < joined t p', u < t.clients → u < joined t p ∨ u ∈ d.finished
  done : p' = .clientDone ↔ p = .clientDone

theorem progress_eq_iff : progress t th p' = progress t th p ↔
    drawn p' = drawn p ∧ inFlight th p' = inFlight th p ∧ sentBy t p' = sentBy t p ∧
      taken p' = taken p := by
  simp [progress]

theorem At.move (h : At t th d p) (halike : Alike t th d p p') (hready : RequestQueue.ready d p') :
    At t th d p' where
  plays := halike.plays h.plays
  bound := halike.bound h.bound
  client hth := by
    rcases h.client hth with ⟨htexts, hsent, hactive⟩
    refine ⟨?_, ?_, hactive.trans halike.done.symm⟩
    · rw [(progress_eq_iff.1 halike.progress).1, htexts]
    · rw [(progress_eq_iff.1 halike.progress).2.1, hsent]
  worker hth := by
    rw [(progress_eq_iff.1 halike.progress).2.2.2]
    exact h.worker hth
  main hth := by
    rcases h.main hth with ⟨hsent, hjoins⟩
    refine ⟨?_, fun u hu hclient => ?_⟩
    · rw [(progress_eq_iff.1 halike.progress).2.2.1, hsent]
    · rcases halike.joined u hu hclient with hu | hu
      · exact hjoins u hu hclient
      · exact hu
  ready := hready

end SystemsLab.RequestQueue
