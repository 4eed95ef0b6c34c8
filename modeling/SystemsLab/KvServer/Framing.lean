import Mathlib.Algebra.BigOperators.Group.List.Basic
import SystemsLab.KvServer.Clients

/-!
# Lines, reads and replies

A client sends lines, and the loop answers what a read returns.  Both agree only as far as a read
returns a line:

* `read_line` stops at `BUF_SIZE - 1` bytes, so a longer line is answered in parts;
* `client_handler` of `uds_kv_server_perf_top.c` does not look for the end of a line at all: several
  lines that arrive together are one command, and a line that arrives in parts is several.
-/

namespace SystemsLab.KvServer

open KeyedList Scanf List

/-! ## Lines -/

/-- The only newline is the last byte. -/
def isLine (bytes : List UInt8) : Bool := bytes.getLast? = some 10 && 10 ∉ bytes.dropLast

variable {line line' rest rest' : List UInt8} {lines : List (List UInt8)}

theorem isLine_iff : isLine line ↔ ∃ text, line = text ++ [10] ∧ 10 ∉ text := by
  rw [isLine, Bool.and_eq_true, decide_eq_true_eq, decide_eq_true_eq]
  constructor
  · rintro ⟨hlast, hnot⟩
    exact ⟨line.dropLast, (dropLast_append_getLast? 10 hlast).symm, hnot⟩
  · rintro ⟨text, rfl, hnot⟩
    rw [getLast?_concat, dropLast_concat]
    exact ⟨rfl, hnot⟩

theorem isLine_ne_nil (h : isLine line) : line ≠ [] := by
  rcases isLine_iff.1 h with ⟨text, rfl, -⟩
  simp

theorem readLine_line (h : isLine line) {room : Nat} (hroom : line.length ≤ room) :
    readLine room (line ++ rest) = (line, rest) := by
  rcases isLine_iff.1 h with ⟨text, rfl, hnot⟩
  clear h
  induction text generalizing room with
  | nil =>
    rcases room with _ | room
    · simp at hroom
    rfl
  | cons c text ih =>
    rw [mem_cons, not_or] at hnot
    rw [cons_append, length_cons] at hroom
    rcases room with _ | room
    · omega
    rw [cons_append, cons_append, readLine, if_neg (Ne.symm hnot.1),
      ih hnot.2 (Nat.le_of_succ_le_succ hroom)]

theorem first_line_unique (h : isLine line) (h' : isLine line')
    (heq : line ++ rest = line' ++ rest') :
    line = line' ∧ rest = rest' := by
  have hread : readLine (line.length + line'.length) (line ++ rest) = (line, rest) :=
    readLine_line h (Nat.le_add_right _ _)
  rw [heq, readLine_line h' (Nat.le_add_left _ _)] at hread
  exact ⟨(congrArg Prod.fst hread).symm, (congrArg Prod.snd hread).symm⟩

/-! ## `read_line` -/

theorem length_readLine_le (room : Nat) (input : List UInt8) :
    (readLine room input).1.length ≤ room := by
  fun_induction readLine room input with
  | case1 => exact Nat.zero_le _
  | case2 => exact Nat.zero_le _
  | case3 => exact Nat.succ_le_succ (Nat.zero_le _)
  | case4 room c input hc line rest hread ih =>
    rw [hread] at ih
    exact Nat.succ_le_succ ih

theorem length_of_mem_readLines {input : List UInt8} (h : line ∈ readLines input) :
    line.length < BUF_SIZE := by
  have hloop : ∀ n (input : List UInt8), ∀ line ∈ readLinesLoop n input, line.length ≤
    BUF_SIZE - 1 := by
    intro n
    induction n with
    | zero =>
      nofun
    | succ n ih =>
      intro input line hline
      simp only [readLinesLoop] at hline
      split_ifs at hline with hnil
      · cases hline
      · rcases mem_cons.1 hline with rfl | hline
        · exact length_readLine_le _ _
        · exact ih _ line hline
  exact lt_of_le_of_lt (hloop _ input line h) (by decide)

theorem readLines_lines (hlines : ∀ l ∈ lines, isLine l ∧ l.length < BUF_SIZE) :
    readLines lines.flatten = lines := by
  have hloop : ∀ n, lines.length ≤ n → readLinesLoop n lines.flatten = lines := by
    induction lines with
    | nil =>
      intro n _
      cases n with
      | zero => rfl
      | succ n => rfl
    | cons line lines ih =>
      intro n hn
      obtain ⟨n, rfl⟩ : ∃ m, n = m + 1 := ⟨n - 1, by rw [length_cons] at hn; omega⟩
      rcases hlines line mem_cons_self with ⟨hline, hlen⟩
      have hread : readLine (BUF_SIZE - 1) (line ++ lines.flatten) = (line, lines.flatten) :=
        readLine_line hline (Nat.le_sub_one_of_lt hlen)
      simp only [readLinesLoop, flatten_cons, hread, if_neg (isLine_ne_nil hline)]
      rw [ih (fun l hl => hlines l (mem_cons_of_mem _ hl)) n (Nat.le_of_succ_le_succ hn)]
  apply hloop
  have hlength : lines.length = (lines.map List.length).length := (length_map _).symm
  rw [length_flatten, hlength]
  apply length_le_sum_of_one_le
  intro n hn
  rcases mem_map.1 hn with ⟨l, hl, rfl⟩
  exact length_pos_of_ne_nil (isLine_ne_nil (hlines l hl).1)

/-! ## One reply for a read -/

/-- A value with a newline would be answered with two lines. -/
def PlainValues (pairs : Pairs) : Prop := ∀ p ∈ pairs, 10 ∉ p.2.bytes

variable {pairs last : Pairs} {log : List (Exchange Store)} {reads : List (List UInt8)}

theorem commandText_plain (line : List UInt8) : 10 ∉ (commandText line).bytes := by
  intro hmem
  simpa using mem_takeWhile_imp hmem

theorem put_plain {k v : CString} (h : PlainValues pairs) (hv : 10 ∉ v.bytes) :
    PlainValues (put pairs k v) := by
  intro p hp
  rw [put] at hp
  split_ifs at hp with hmem hlen
  · rcases mem_change hp with hp | ⟨q, -, rfl⟩
    · exact h p hp
    · exact hv
  · rcases mem_append.1 hp with hp | hp
    · exact h p hp
    · rwa [mem_singleton.1 hp]
  · exact h p hp

theorem effect_plain (h : PlainValues pairs) (line : List UInt8) :
    PlainValues ((parse (commandText line)).effect pairs) := by
  cases hparse : parse (commandText line) with
  | set k v =>
    rcases parse_set hparse with ⟨-, -, hsubset⟩
    exact put_plain h fun hmem => commandText_plain line (hsubset hmem)
  | _ => exact h

theorem valueLine_isLine {v : CString} (hv : 10 ∉ v.bytes) : isLine (valueLine v) := by
  rw [isLine_iff]
  refine ⟨literal "VALUE " ++ v.bytes, rfl, ?_⟩
  rw [mem_append, not_or]
  exact ⟨by decide, hv⟩

theorem reply_isLine (h : PlainValues pairs) (c : Command) : isLine (c.reply pairs) := by
  cases c with
  | get k =>
    rw [Command.reply]
    cases hfind : find pairs k with
    | none => decide
    | some v =>
      rw [find, Option.map_eq_some_iff] at hfind
      rcases hfind with ⟨p, hp, rfl⟩
      exact valueLine_isLine (h p (mem_of_lookup hp).1)
  | _ =>
    rw [Command.reply]
    decide

/-- Values stay without newlines, so that every reply is one line. -/
theorem Linked.replies (h : Linked Represents pairs log last) (hplain : PlainValues pairs) :
    PlainValues last ∧ ∀ e ∈ log, isLine e.reply := by
  induction log generalizing pairs with
  | nil =>
    cases h
    exact ⟨hplain, fun e he => absurd he not_mem_nil⟩
  | cons e log ih =>
    rcases h with ⟨-, hreply, hrest⟩
    rcases ih hrest (effect_plain hplain e.line) with ⟨hlast, hlog⟩
    refine ⟨hlast, ?_⟩
    intro e' he'
    rcases mem_cons.1 he' with rfl | he'
    · rw [hreply]
      exact reply_isLine hplain _
    · exact hlog e' he'

theorem parse_exit {buf : CString} (h : parse buf = .exit) : buf = .ofLiteral "EXIT" := by
  rw [parse] at h
  split_ifs at h with hset hget hexit
  · split at h
    · cases h
    · cases h
  · split at h
    · cases h
    · cases h
  · exact hexit

theorem talk_lines_front (pairs : Pairs) (reads : List (List UInt8)) :
    (talk pairs reads).2.map Exchange.line <+: reads := by
  induction reads generalizing pairs with
  | nil => exact nil_prefix
  | cons line reads ih =>
    simp only [talk]
    split_ifs with hexit
    · exact cons_prefix_cons.2 ⟨rfl, nil_prefix⟩
    · exact cons_prefix_cons.2 ⟨rfl, ih _⟩

theorem talk_lines (pairs : Pairs) (h : ∀ l ∈ reads, commandText l ≠ .ofLiteral "EXIT") :
    (talk pairs reads).2.map Exchange.line = reads := by
  induction reads generalizing pairs with
  | nil => rfl
  | cons line reads ih =>
    have hexit : parse (commandText line) ≠ .exit := fun heq =>
      h line mem_cons_self (parse_exit heq)
    simp only [talk, if_neg hexit, map_cons]
    rw [ih _ fun l hl => h l (mem_cons_of_mem _ hl)]

theorem map_line_eq {log' : List (Exchange Pairs)} (h : List.Forall₂ Exchange.Matches log log') :
    log.map Exchange.line = log'.map Exchange.line := by
  induction h with
  | nil => rfl
  | cons he hlog ih => rw [map_cons, map_cons, he.line, ih]

/-- Every reply is one line; there is one command for each line exactly if the lines fit the buffer.
-/
theorem one_command_per_line_iff (earlier lines : List (List UInt8))
    (hlines : ∀ l ∈ lines, isLine l ∧ commandText l ≠ .ofLiteral "EXIT") :
    ∃ store logs store' log, serve uds [] (earlier.map readLines) = some (store, logs) ∧
      clientLoop uds store (readLines lines.flatten) = some (store', log) ∧
        (∀ e ∈ log, isLine e.reply) ∧
      (log.map Exchange.line = lines ↔ ∀ l ∈ lines, l.length < BUF_SIZE) := by
  rcases serve_refines uds_implements represents_nil (earlier.map readLines) with
    ⟨store, logs, hserve, hstore, hlogs⟩
  rcases clientLoop_refines uds_implements hstore (readLines lines.flatten)
    with ⟨store', log, hloop, -, hlog⟩
  have hearlier := (talkAll_linked [] (earlier.map readLines)).of_matches (rel_flatten hlogs)
  rcases hearlier.replies fun p hp => absurd hp not_mem_nil with ⟨hplain, -⟩
  rcases ((talk_linked _ _).of_matches hlog).replies hplain with ⟨-, hreplies⟩
  refine ⟨store, logs, store', log, hserve, hloop, hreplies, ?_⟩
  rw [map_line_eq hlog]
  constructor
  · -- a line that was answered as a whole was read as a whole
    intro heq l hl
    rw [← heq] at hl
    exact length_of_mem_readLines ((talk_lines_front _ _).subset hl)
  · intro hfits
    rw [readLines_lines fun l hl => ⟨(hlines l hl).1, hfits l hl⟩]
    exact talk_lines _ fun l hl => (hlines l hl).2

theorem one_command_per_line_short :
    ∃ store logs store' log, serve uds [] ([literal "SET k a b\nEXIT\n"].map readLines) =
      some (store, logs) ∧
      clientLoop uds store (readLines (["GET k\r\n", "SET k\n", "\n"].map literal).flatten) =
        some (store', log) ∧
      (∀ e ∈ log, isLine e.reply) ∧
      (log.map Exchange.line = ["GET k\r\n", "SET k\n", "\n"].map literal ↔
        ∀ l ∈ ["GET k\r\n", "SET k\n", "\n"].map literal, l.length < BUF_SIZE) :=
  one_command_per_line_iff _ _ (by decide)

/-- One line, which does not fit the buffer of `read_line`. -/
def longLine : List UInt8 := List.replicate 1023 97 ++ literal "SET k v\n"

/-- The end of a long line is a command of its own. -/
theorem long_line_is_two_commands : isLine longLine ∧ commandText longLine ≠ .ofLiteral "EXIT" ∧
      (clientLoop uds [] (readLines longLine)).map (fun r => r.2.map Exchange.reply) =
        some (["ERR unknown command\n", "OK\n"].map literal) := by
  decide +kernel

/-! ## Reads that are not lines -/

/-- Up to the first EXIT, every read is a line. -/
def aligned : List (List UInt8) → Bool
  | [] => true
  | read :: reads => isLine read && (commandText read = .ofLiteral "EXIT" || aligned reads)

theorem clientLoop_exit (server : Server) (store : Store) (reads : List (List UInt8))
    (h : commandText line = .ofLiteral "EXIT") :
    clientLoop server store (line :: reads) = some (store, [⟨store, line, literal "BYE\n"⟩]) := by
  rw [clientLoop, h]
  rfl

/-- Such reads are answered as the lines of the stream are. -/
theorem clientLoop_aligned (server : Server) (store : Store) {cut : List (List UInt8)}
    (hlines : ∀ l ∈ lines, isLine l) (hcut : cut.flatten = lines.flatten) (haligned : aligned cut) :
    clientLoop server store cut = clientLoop server store lines := by
  induction cut generalizing store lines with
  | nil =>
    cases lines with
    | nil => rfl
    | cons line lines =>
      have hnil := (append_eq_nil_iff.1 hcut.symm).1
      exact absurd hnil (isLine_ne_nil (hlines line mem_cons_self))
  | cons read cut ih =>
    rw [aligned, Bool.and_eq_true, Bool.or_eq_true, decide_eq_true_eq] at haligned
    rcases haligned with ⟨hread, hrest⟩
    cases lines with
    | nil => exact absurd (append_eq_nil_iff.1 hcut).1 (isLine_ne_nil hread)
    | cons line lines =>
      -- the first read and the first line are both the stream up to its first newline
      rcases first_line_unique hread (hlines line mem_cons_self) hcut with ⟨rfl, hflat⟩
      rcases hrest with hexit | hrest
      · rw [clientLoop_exit server store cut hexit, clientLoop_exit server store lines hexit]
      · have hloop : ∀ store, clientLoop server store cut = clientLoop server store lines := by
          intro store
          exact ih store (fun l hl => hlines l (mem_cons_of_mem _ hl)) hflat hrest
        simp only [clientLoop, hloop]

/-- Reads that are the lines of the stream up to EXIT get the replies of the lines, and leave the
same store. -/
theorem replies_of_aligned_reads (earlier : List (List (List UInt8)))
    (lines cut cut' : List (List UInt8))
    (hlines : ∀ l ∈ lines, isLine l) (hcut : cut.flatten = lines.flatten)
    (hcut' : cut'.flatten = lines.flatten) (haligned : aligned cut) (haligned' : aligned cut') :
    ∃ store logs store' log, serve perfTop [] earlier = some (store, logs) ∧
      clientLoop perfTop store lines = some (store', log) ∧
        clientLoop perfTop store cut = some (store', log) ∧
      clientLoop perfTop store cut' = some (store', log) := by
  rcases serve_refines perfTop_implements represents_nil earlier
    with ⟨store, logs, hserve, hstore, -⟩
  rcases clientLoop_refines perfTop_implements hstore lines with ⟨store', log, hloop, -⟩
  refine ⟨store, logs, store', log, hserve, hloop, ?_, ?_⟩
  · rw [clientLoop_aligned perfTop store hlines hcut haligned, hloop]
  · rw [clientLoop_aligned perfTop store hlines hcut' haligned', hloop]

-- What is sent behind EXIT may arrive in any pieces.
theorem replies_of_aligned_reads_exit :
    ∃ store logs store' log, serve perfTop [] [[literal "SET k a\n"]] = some (store, logs) ∧
      clientLoop perfTop store (["GET k\n", "EXIT\n", "GET k\n"].map literal) = some (store', log) ∧
      clientLoop perfTop store (["GET k\n", "EXIT\n", "GET ", "k\n"].map literal) =
        some (store', log) ∧
      clientLoop perfTop store (["GET k\n", "EXIT\n", "G", "ET k\n"].map literal) =
        some (store', log) :=
  replies_of_aligned_reads _ _ _ _ (by decide) (by decide) (by decide) (by decide) (by decide)

/-- Two lines in one read are one command. -/
theorem joined_lines_are_one_command : (["SET a 1\nSET b 2\n"].map literal).flatten =
    (["SET a 1\n", "SET b 2\n"].map literal).flatten ∧
      (clientLoop perfTop [] (["SET a 1\nSET b 2\n"].map literal)).map
        (fun r => (r.1.length, r.2.map Exchange.reply)) = some (1, ["OK\n"].map literal) ∧
      (clientLoop perfTop [] (["SET a 1\n", "SET b 2\n"].map literal)).map
        (fun r => (r.1.length, r.2.map Exchange.reply)) =
        some (2, ["OK\n", "OK\n"].map literal) := by
  decide +kernel

end SystemsLab.KvServer
