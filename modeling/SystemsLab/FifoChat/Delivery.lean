import SystemsLab.CLib.CString
import SystemsLab.Data.CallSequence

/-!
# One direction of the chat over a FIFO

Embeds the sending loop of `main` in `chat1.c` and the loop of `read_messages` in `chat2.c` (and the
same two loops the other way round), which open and close the FIFO for every message.  The system
calls of the two sides are interleaved arbitrarily.  A FIFO keeps its bytes while some end of it is
open.
-/

namespace SystemsLab.FifoChat

open CallSequence

def BUF_SIZE : Nat := 100

/-- Where the sender is: `waiting` in `open`, `killed` by a write without a reader. -/
inductive SenderAt where
  | closed | waiting | opened | written | killed
  deriving DecidableEq

inductive ReceiverAt where
  | closed | waiting | opened | printed
  deriving DecidableEq

def SenderAt.holds : SenderAt → Bool
  | .opened | .written => true
  | _ => false

def ReceiverAt.holds : ReceiverAt → Bool
  | .opened | .printed => true
  | _ => false

/-- `typed` are the lines that `fgets` has not read yet, `buf` is the one in the sender's buffer. -/
structure Chat where
  typed : List CString
  buf : CString
  fifo : List UInt8
  sender : SenderAt
  receiver : ReceiverAt
  printed : List CString
  deriving DecidableEq

def start (messages : List CString) : Chat := ⟨messages, .empty, [], .closed, .closed, []⟩

inductive Act where
  | sendOpen | sendWrite | sendClose | recvOpen | recvRead | recvClose
  deriving DecidableEq

/-- The `strlen(buf) + 1` bytes of a message. -/
def frame (message : CString) : List UInt8 := message.bytes ++ [0]

/-- One system call, if it does not block.  An `open` wakes the other side if that one waits in its
`open`. -/
def step (s : Chat) : Act → Option Chat
  | .sendOpen =>
    match s.sender, s.typed with
    | .closed, message :: rest =>
      let s := { s with typed := rest, buf := message }
      match s.receiver with
      | .closed => some { s with sender := .waiting }
      | .waiting => some { s with sender := .opened, receiver := .opened }
      | _ => some { s with sender := .opened }
    | _, _ => none
  | .sendWrite =>
    if s.sender = .opened then
      if s.receiver.holds then some { s with sender := .written, fifo := s.fifo ++ frame s.buf }
      else some { s with sender := .killed, fifo := [] }
    else none
  | .sendClose =>
    if s.sender = .written then
      some { s with sender := .closed, fifo := if s.receiver.holds then s.fifo else [] }
    else none
  | .recvOpen =>
    if s.receiver = .closed then
      match s.sender with
      | .closed | .killed => some { s with receiver := .waiting }
      | .waiting => some { s with sender := .opened, receiver := .opened }
      | _ => some { s with receiver := .opened }
    else none
  | .recvRead =>
    -- an empty FIFO blocks the reader while there is a writer, and gives it zero bytes otherwise
    if s.receiver = .opened ∧ ¬(s.fifo = [] ∧ s.sender.holds) then
      some { s with
        receiver := .printed
        fifo := s.fifo.drop BUF_SIZE
        printed := s.printed ++ [.ofBytes (s.fifo.take BUF_SIZE)] }
    else none
  | .recvClose =>
    if s.receiver = .printed then
      some { s with receiver := .closed, fifo := if s.sender.holds then s.fifo else [] }
    else none

/-- Each side opens the FIFO only after the other one has closed it. -/
def apart (s : Chat) : Act → Bool
  | .sendOpen => !s.receiver.holds
  | .recvOpen => !s.sender.holds
  | _ => true

/-- Where the message in `buf` and the typed ones are while the two sides take turns. -/
def TakeTurns (messages : List CString) (s : Chat) : Prop :=
  match s.sender, s.receiver with
  | .waiting, .closed | .opened, .opened => s.fifo = [] ∧ s.printed ++ s.buf :: s.typed = messages
  | .written, .opened | .closed, .opened => s.fifo = frame s.buf ∧
    s.printed ++ s.buf :: s.typed = messages
  | .closed, .closed | .closed, .waiting | .closed, .printed | .written,
    .printed | .written, .closed =>
    s.fifo = [] ∧ s.printed ++ s.typed = messages
  | _, _ => False

def callsLeft (s : Chat) : Nat :=
  6 * s.typed.length + match s.sender, s.receiver with
    | .waiting, _ => 6
    | .opened, _ => 5
    | .written, .opened => 4
    | .written, .printed | .closed, .opened => 3
    | .written, _ | .closed, .printed => 2
    | .closed, .closed => 1
    | _, _ => 0

variable {messages : List CString} {s s' : Chat} {a : Act}

theorem take_frame {m : CString} (h : m.bytes.length < BUF_SIZE) :
    CString.ofBytes ((frame m).take BUF_SIZE) = m ∧ (frame m).drop BUF_SIZE = [] := by
  have hlen : (frame m).length ≤ BUF_SIZE := by simpa [frame] using Nat.succ_le_of_lt h
  rw [List.take_of_length_le hlen]
  exact ⟨CString.ofBytes_terminated m [], List.drop_of_length_le hlen⟩

theorem TakeTurns.step (hlen : ∀ m ∈ messages, m.bytes.length < BUF_SIZE)
    (hs : TakeTurns messages s) (hok : apart s a) (h : step s a = some s') :
    TakeTurns messages s' ∧ callsLeft s' < callsLeft s := by
  rcases s with ⟨typed, buf, fifo, sender, receiver, printed⟩
  cases a with
  | sendOpen =>
    -- the receiver has no end, so the FIFO is empty
    cases sender <;> cases receiver <;> cases typed <;> cases h <;>
      simp_all [TakeTurns, callsLeft, apart, ReceiverAt.holds] <;> omega
  | recvOpen =>
    cases sender <;> cases receiver <;> cases h <;> simp_all [TakeTurns, callsLeft, apart,
      SenderAt.holds]
  | sendWrite => cases sender <;> cases receiver <;> cases h <;> simp_all [TakeTurns, callsLeft]
  | sendClose =>
    cases sender <;> cases receiver <;> cases h <;> simp_all [TakeTurns, callsLeft,
      ReceiverAt.holds]
  | recvClose => cases sender <;> cases receiver <;> cases h <;> simp_all [TakeTurns, callsLeft]
  | recvRead =>
    cases receiver with
    | opened =>
      cases sender with
      | written | closed =>
        -- the message in the FIFO is whole and alone
        obtain ⟨rfl, hall⟩ : fifo = frame buf ∧ printed ++ buf :: typed = messages := hs
        rcases take_frame (hlen buf (by simp [← hall])) with ⟨htake, hdrop⟩
        have hne : frame buf ≠ [] := List.concat_ne_nil _ _
        obtain rfl : _ = s' := by simpa [FifoChat.step, hne] using h
        exact ⟨⟨hdrop, by simpa [htake] using hall⟩, by simp [callsLeft]⟩
      | opened =>
        obtain ⟨rfl, -⟩ : fifo = [] ∧ printed ++ buf :: typed = messages := hs
        simp [FifoChat.step, SenderAt.holds] at h
      | _ => cases hs
    | _ => cases h

theorem TakeTurns.run (hlen : ∀ m ∈ messages, m.bytes.length < BUF_SIZE) {acts : List Act}
    (hs : TakeTurns messages s)
    (hturns : guarded FifoChat.step apart s acts) (hrun : runCalls FifoChat.step s acts = some s') :
    TakeTurns messages s' ∧ acts.length + callsLeft s' ≤ callsLeft s := by
  induction acts generalizing s with
  | nil =>
    cases hrun
    exact ⟨hs, by simp⟩
  | cons a acts ih =>
    rcases Option.bind_eq_some_iff.1 hrun with ⟨s1, hs1, hrest⟩
    rcases hs.step hlen (guarded_head hturns) hs1 with ⟨h1, hless⟩
    rcases ih h1 (guarded_cons hturns hs1) hrest with ⟨h2, hle⟩
    exact ⟨h2, by simp only [List.length_cons]; omega⟩

theorem TakeTurns.ended (hs : TakeTurns messages s) (hend : ∀ a, FifoChat.step s a = none) :
    s.printed = messages := by
  have hso := hend .sendOpen
  have hsw := hend .sendWrite
  have hsc := hend .sendClose
  have hro := hend .recvOpen
  have hrr := hend .recvRead
  rcases s with ⟨typed, buf, fifo, sender, receiver, printed⟩
  cases sender <;> cases receiver <;> cases typed <;>
    simp_all [FifoChat.step, TakeTurns, SenderAt.holds, ReceiverAt.holds]

/-- If the two sides take turns with the FIFO, there is an end to their calls, and every message is
printed then, once and in order. -/
theorem chat_delivers {messages : List CString} (hlen : ∀ m ∈ messages, m.bytes.length < BUF_SIZE)
    {acts : List Act} {s : Chat} (hrun : runCalls step (start messages) acts = some s)
    (hturns : guarded step apart (start messages) acts) :
    acts.length ≤ 6 * messages.length + 1 ∧ ((∀ a, step s a = none) → s.printed = messages) := by
  have hstart : TakeTurns messages (start messages) := ⟨rfl, rfl⟩
  rcases hstart.run hlen hturns hrun with ⟨hs, hle⟩
  exact ⟨Nat.le_trans (Nat.le_add_right _ _) hle, hs.ended⟩

def hi : CString := .ofBytes [104, 105, 10]

def yo : CString := .ofBytes [121, 111, 10]

def turns : List Act := [.sendOpen, .recvOpen, .sendWrite, .recvRead, .sendClose, .recvClose]

theorem chat_delivers_demo :
    ∃ s, runCalls step (start [hi, yo]) (turns ++ turns ++ [.recvOpen]) = some s ∧
      s.printed = [hi, yo] := by
  have hrun : runCalls step (start [hi, yo]) (turns ++ turns ++ [.recvOpen]) =
      some ⟨[], yo, [], .closed, .waiting, [hi, yo]⟩ := by decide
  refine ⟨_, hrun, (chat_delivers (by decide) hrun (by decide)).2 fun a => ?_⟩
  cases a <;> rfl

/-- Both messages are in the FIFO when the receiver gets to its `read`: it prints the first one, and
the second one is gone when it closes the FIFO. -/
theorem second_message_lost : ∃ s, runCalls step (start [hi, yo])
        [.sendOpen, .recvOpen, .sendWrite, .sendClose, .sendOpen, .sendWrite, .sendClose,
          .recvRead, .recvClose,
          .recvOpen] = some s ∧ (∀ a, step s a = none) ∧ s.printed = [hi] := by
  refine ⟨⟨[], yo, [], .closed, .waiting, [hi]⟩, by decide, fun a => ?_, rfl⟩
  cases a <;> rfl

end SystemsLab.FifoChat
