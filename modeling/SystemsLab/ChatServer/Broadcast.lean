import Mathlib.Data.List.FinRange
import SystemsLab.CLib.CharArray
import SystemsLab.Data.CallSequence

/-!
# The broadcasts of `multiclient_chat_server.c`

One pass of the server's loop takes a new connection and then serves the clients that are ready,
slot by slot; both are events here, in any order.  What was read is terminated in `buffer` and
measured with `strlen` before it is sent on.
-/

namespace SystemsLab.ChatServer

open CallSequence Function List Option

abbrev MAX_CLIENTS : Nat := 10

def BUF_SIZE : Nat := 1024

/-- `client_socket`; zero is an unused slot. -/
abbrev Sockets := Fin MAX_CLIENTS → Nat

/-- What `read` does: it returns `-1` or the number of the bytes it read. -/
inductive ReadResult where
  | failed
  | bytes (chunk : List UInt8)

inductive Event where
  | accept (newSocket : Nat)
  | ready (i : Fin MAX_CLIENTS) (result : ReadResult)

/-- `buffer` after `memset` and `read`. -/
def received (chunk : List UInt8) : CArray UInt8 BUF_SIZE := ⟨fun i => (chunk[i.val]?).getD 0⟩

/-- The slots that the loop over `j` sends to. -/
def others (clientSocket : Sockets) (sd : Nat) : List (Fin MAX_CLIENTS) :=
  (finRange MAX_CLIENTS).filter fun j => clientSocket j ≠ 0 ∧ clientSocket j ≠ sd

/-- The sockets after an event and what was sent to whom; none for a write outside `buffer`. -/
def serve (clientSocket : Sockets) : Event → Option (Sockets × List (Nat × List UInt8))
  | .accept newSocket =>
    let slot := (finRange MAX_CLIENTS).find? fun i => clientSocket i = 0
    some (slot.elim clientSocket fun i => update clientSocket i newSocket,
      [(newSocket, literal "Welcome to the chat!\n")])
  | .ready i result =>
    let sd := clientSocket i
    -- `FD_SET` is called for positive descriptors only
    if sd = 0 then some (clientSocket, [])
    else
      match result with
      | .failed => none
      | .bytes chunk =>
        -- zero bytes: the client has closed the connection
        if chunk = [] then some (update clientSocket i 0, [])
        else do
          let buffer ← (received chunk).set chunk.length 0
          let text ← CharArray.text buffer
          some (clientSocket, (others clientSocket sd).map fun j => (clientSocket j, text.bytes))

def call (s : Sockets) (e : Event) : Option Sockets := (serve s e).map Prod.fst

/-- `accept` gives a descriptor that is not open. -/
def fresh (s : Sockets) : Event → Bool
  | .accept newSocket => newSocket ≠ 0 ∧ ∀ i, s i ≠ newSocket
  | .ready _ _ => true

/-- No two slots have the same client. -/
def Distinct (s : Sockets) : Prop := ∀ i j, s i ≠ 0 → s i = s j → i = j

/-- The clients in `client_socket` but the one in slot `i` are sent the chunk, once each, and
nothing else is sent. -/
def SentToOthers (s : Sockets) (i : Fin MAX_CLIENTS) (chunk : List UInt8)
    (sent : List (Nat × List UInt8)) : Prop :=
  sent.Nodup ∧ ∀ c m, (c, m) ∈ sent ↔ (∃ j, s j = c) ∧ c ≠ 0 ∧ c ≠ s i ∧ m = chunk

variable {s s' : Sockets} {i : Fin MAX_CLIENTS} {chunk : List UInt8}

theorem Distinct.update (h : Distinct s) {c : Nat} (hc : c = 0 ∨ ∀ j, s j ≠ c) :
    Distinct (update s i c) := by
  intro a b ha hab
  by_cases hai : a = i
  · by_cases hbi : b = i
    · rw [hai, hbi]
    · subst hai
      rw [update_self] at ha hab
      rw [update_of_ne hbi] at hab
      exact absurd hab.symm (hc.resolve_left ha b)
  · rw [update_of_ne hai] at ha hab
    rcases eq_or_ne b i with rfl | hbi
    · rw [update_self] at hab
      exact absurd hab (hc.resolve_left (hab ▸ ha) a)
    · rw [update_of_ne hbi] at hab
      exact h a b ha hab

theorem Distinct.call (h : Distinct s) {e : Event} (hfresh : fresh s e)
    (hcall : call s e = some s') : Distinct s' := by
  rcases map_eq_some_iff.1 hcall with ⟨⟨t, sent⟩, hserve, rfl⟩
  cases e with
  | accept newSocket =>
    have hnew : newSocket ≠ 0 ∧ ∀ i, s i ≠ newSocket := of_decide_eq_true hfresh
    cases hslot : (finRange MAX_CLIENTS).find? fun i => s i = 0 with
    | none => simp_all [serve]
    | some i =>
      rw [serve, hslot] at hserve
      cases hserve
      exact h.update (.inr hnew.2)
  | ready i result =>
    simp only [serve] at hserve
    split_ifs at hserve with hi
    · cases hserve
      exact h
    · cases result with
      | failed => cases hserve
      | bytes chunk =>
        dsimp only at hserve
        split_ifs at hserve
        · cases hserve
          exact h.update (.inl rfl)
        · rcases bind_eq_some_iff.1 hserve with ⟨buffer, -, hserve⟩
          rcases bind_eq_some_iff.1 hserve with ⟨text, -, hserve⟩
          cases hserve
          exact h

theorem text_received (h : chunk.length < BUF_SIZE) :
    ∃ buffer, (received chunk).set chunk.length 0 = some buffer ∧
      CharArray.text buffer = some (.ofBytes chunk) := by
  rcases CArray.exists_set (received chunk) h 0 with ⟨buffer, hset, hget⟩
  have hfront := CharArray.front_of_padded (a := buffer) h fun j hj => by
    rw [hget]
    split_ifs with hlast
    · simp [hlast]
    · exact dif_pos hj
  refine ⟨buffer, hset, ?_⟩
  rw [CharArray.text, hfront, if_pos (by simp), CString.ofBytes_append_nul]

theorem serve_full (hi : s i ≠ 0) (h : BUF_SIZE ≤ chunk.length) :
    serve s (.ready i (.bytes chunk)) = none := by
  have hne : chunk ≠ [] := ne_nil_of_length_pos (Nat.lt_of_lt_of_le (by decide) h)
  simp [serve, hi, hne, CArray.set, h]

theorem mem_others {j : Fin MAX_CLIENTS} : j ∈ others s (s i) ↔ s j ≠ 0 ∧ s j ≠ s i := by
  simp [others]

theorem sentToOthers_iff (h : Distinct s) (text : CString) :
    SentToOthers s i chunk ((others s (s i)).map fun j => (s j, text.bytes)) ↔
      text.bytes = chunk ∨ ∀ j, s j ≠ 0 → j = i := by
  constructor
  · rintro ⟨-, hsent⟩
    by_cases hall : ∀ j, s j ≠ 0 → j = i
    · exact .inr hall
    · push Not at hall
      rcases hall with ⟨j, hj, hji⟩
      have hmem : j ∈ others s (s i) := mem_others.2 ⟨hj, fun heq => hji (h j i hj heq)⟩
      exact .inl ((hsent _ _).1 (mem_map_of_mem hmem)).2.2.2
  · intro hor
    refine ⟨((nodup_finRange _).filter _).map_on fun a ha b _ heq => ?_, fun c m => ?_⟩
    · exact h a b (mem_others.1 ha).1 (Prod.ext_iff.1 heq).1
    · simp only [List.mem_map, mem_others, Prod.mk.injEq]
      constructor
      · rintro ⟨j, ⟨hj, hji⟩, rfl, rfl⟩
        refine ⟨⟨j, rfl⟩, hj, hji, hor.resolve_right fun hall => hji ?_⟩
        rw [hall j hj]
      · rintro ⟨⟨j, rfl⟩, hj, hji, rfl⟩
        refine ⟨j, ⟨hj, hji⟩, rfl, hor.resolve_right fun hall => hji ?_⟩
        rw [hall j hj]

/-- After any sequence of connections, disconnections and messages: a chunk is sent as it is, once
to every other client in `client_socket` and to nobody else, exactly where it leaves room for a
terminator in `buffer` and has no zero byte, or nobody else is there. -/
theorem broadcast_exact_iff (events : List Event) (s : Sockets)
    (hrun : runCalls call (fun _ => 0) events = some s)
    (hfresh : guarded call fresh (fun _ => 0) events)
    (i : Fin MAX_CLIENTS) (hi : s i ≠ 0) (chunk : List UInt8) (hchunk : chunk ≠ []) :
    (∃ sent, serve s (.ready i (.bytes chunk)) = some (s, sent) ∧ SentToOthers s i chunk sent) ↔
      chunk.length < BUF_SIZE ∧ (0 ∈ chunk → ∀ j, s j ≠ 0 → j = i) := by
  have hdistinct : Distinct s := runCalls_kept_guarded (P := Distinct)
    (fun _ _ _ h hok hcall => h.call hok hcall)
    (fun _ _ h0 _ => absurd rfl h0) hfresh hrun
  by_cases hlen : chunk.length < BUF_SIZE
  · rcases text_received hlen with ⟨buffer, hset, htext⟩
    have hserve : serve s (.ready i (.bytes chunk)) =
        some (s, (others s (s i)).map fun j => (s j, (CString.ofBytes chunk).bytes)) := by
      simp [serve, hi, hchunk, hset, htext]
    have hnul : (CString.ofBytes chunk).bytes = chunk ↔ 0 ∉ chunk :=
      ⟨fun heq => heq ▸ (CString.ofBytes chunk).noNul,
        fun h => congrArg CString.bytes (CString.ofBytes_bytes ⟨chunk, h⟩)⟩
    simp [hserve, sentToOthers_iff hdistinct, hnul, hlen, imp_iff_not_or]
  · simp [serve_full hi (Nat.le_of_not_lt hlen), hlen]

/-- Two clients, and one of them writes `hi`. -/
theorem broadcast_exact_demo :
    ∃ s sent, runCalls call (fun _ => 0) [.accept 4, .accept 5] = some s ∧
    serve s (.ready 0 (.bytes [104, 105])) = some (s, sent) ∧ SentToOthers s 0 [104, 105] sent := by
  rcases (broadcast_exact_iff [.accept 4, .accept 5] _ rfl (by decide) 0 (by decide) [104, 105]
    (by decide)).2 ⟨by decide, by decide⟩ with ⟨sent, hsent⟩
  exact ⟨_, sent, rfl, hsent⟩

/-- Of three bytes with a zero in the middle one is sent on, and a full buffer is terminated outside
of it. -/
theorem broadcast_cuts_chunk : ∃ s, runCalls call (fun _ => 0) [.accept 4, .accept 5] = some s ∧
    (serve s (.ready 0 (.bytes [97, 0, 98]))).map Prod.snd = some [(5, [97])] ∧
    serve s (.ready 0 (.bytes (replicate BUF_SIZE 97))) = none :=
  ⟨_, rfl, by decide +kernel, serve_full (by decide) length_replicate.ge⟩

end SystemsLab.ChatServer
