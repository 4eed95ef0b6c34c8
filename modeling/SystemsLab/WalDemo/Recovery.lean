import SystemsLab.CLib.CArray
import SystemsLab.CLib.CString
import SystemsLab.Data.CallSequence

/-!
# The log of `wal_demo.c` and its recovery

A file is its bytes, or `none` if it does not exist.  `fsync` decides how much of the log survives a
crash; the recovery is run on whatever part survived, so the model has no other trace of it.

The loop of `recover` hands every complete line to `handleLine` and ignores an unfinished one at the
end (`scan_line`, `scan_partial`).  A transaction is three lines.  Its SET line is applied as soon
as it has been read, so that a log that ends between this line and the end of the COMMIT line makes
the recovery apply a transaction that never committed.
-/

namespace SystemsLab.WalDemo

open CallSequence CString

def MAX_LINE : Nat := 256

abbrev File := Option (List UInt8)

def newline : UInt8 := 10

/-! ## Writing -/

/-- `append_file` with `write` succeeding.  `snprintf` cuts the text to the buffer but returns the
length of the whole text, and that many bytes are then written from the buffer. -/
def appendFile (file : File) (line : CString) : Option File :=
  let text := line.bytes ++ [newline]
  let buf := text.take (MAX_LINE - 1) ++ [0]
  if text.length ≤ MAX_LINE then some (some (file.getD [] ++ buf.take text.length)) else none

def beginLine : CString := .ofLiteral "TRANSACTION 1 BEGIN"

def commitLine : CString := .ofLiteral "TRANSACTION 1 COMMIT"

/-- `snprintf(buf, MAX_LINE, "SET %s %s", key, value)` -/
def setLine (key value : CString) : CString :=
  let text := CString.ofLiteral "SET " ++ key ++ .ofLiteral " " ++ value
  ⟨text.bytes.take (MAX_LINE - 1), fun h => text.noNul (List.mem_of_mem_take h)⟩

def appendTransaction (wal : File) (key value : CString) : Option File := do
  let wal ← appendFile wal beginLine
  let wal ← appendFile wal (setLine key value)
  appendFile wal commitLine

def writeNosync (wal : File) (key value : CString) : Option File :=
  appendTransaction wal key value

/-- `crash_after_wal`: the log when the process exits. -/
def crashAfterWal (wal : File) (key value : CString) : Option File :=
  appendTransaction wal key value

/-- A call of one of the two, in a process of its own after a crash. -/
structure WalCall where
  crash : Bool
  key : CString
  value : CString

def walCall (wal : File) (c : WalCall) : Option File :=
  if c.crash then crashAfterWal wal c.key c.value else writeNosync wal c.key c.value

/-! ## Recovery -/

/-- What `recover` does with a line: the new `in_tx` and the database file. -/
def handleLine (inTx : Bool) (db : File) (line : CString) : Option (Bool × File) :=
  if line.strncmpEq (.ofLiteral "TRANSACTION") 11 && line.strstr (.ofLiteral "BEGIN") then
    some (true, db)
  else if line.strncmpEq (.ofLiteral "TRANSACTION") 11 && line.strstr (.ofLiteral "COMMIT") then
    some (false, db)
  else if inTx && line.strncmpEq (.ofLiteral "SET") 3 then
    -- the line is applied here, before the end of its transaction has been read
    (appendFile db line).map fun db => (inTx, db)
  else some (inTx, db)

/-- The variables of the loop of `recover`. -/
structure Scan where
  buf : CArray UInt8 MAX_LINE
  pos : Nat
  inTx : Bool
  db : File

/-- One round of the loop: the byte `c` was read into `buf[pos]`. -/
def recoverByte (s : Scan) (c : UInt8) : Option Scan := do
  let buf ← s.buf.set s.pos c
  if c = newline then do
    let buf ← buf.set s.pos 0
    let (inTx, db) ← handleLine s.inTx s.db (.ofBytes (buf.front MAX_LINE))
    some ⟨buf, 0, inTx, db⟩
  else
    let pos := s.pos + 1
    -- a long line keeps overwriting the last place
    some { s with buf := buf, pos := if MAX_LINE - 1 ≤ pos then MAX_LINE - 2 else pos }

/-- `recover` on the log `wal`, with `buf` as it happens to be; the database file afterwards. -/
def recover (buf : CArray UInt8 MAX_LINE) (wal : List UInt8) (db : File) : Option File :=
  (runCalls recoverByte ⟨buf, 0, false, db⟩ wal).map Scan.db

open List Option

/-! ## Lines -/

variable {s : Scan} {line : List UInt8} {inTx : Bool} {db : File}

theorem recoverByte_store {c : UInt8} (hc : c ≠ newline) (hpos : s.pos < MAX_LINE - 2) :
    ∃ s', recoverByte s c = some s' ∧ s'.pos = s.pos + 1 ∧
      s'.buf.front s'.pos = s.buf.front s.pos ++ [c] ∧ s'.inTx = s.inTx ∧ s'.db = s.db := by
  have hlt : s.pos < MAX_LINE := lt_of_lt_of_le hpos (Nat.sub_le _ _)
  rcases s.buf.exists_push hlt c with ⟨buf, hset, hfront⟩
  refine ⟨{ s with buf := buf, pos := s.pos + 1 }, ?_, rfl, hfront, rfl, rfl⟩
  have hinside : ¬MAX_LINE - 1 ≤ s.pos + 1 := by
    omega
  simp [recoverByte, hset, hc, hinside]

theorem scan_partial (hline : newline ∉ line) (hlen : s.pos + line.length ≤ MAX_LINE - 2) :
    ∃ s', runCalls recoverByte s line = some s' ∧ s'.pos = s.pos + line.length ∧
      s'.buf.front s'.pos = s.buf.front s.pos ++ line ∧ s'.inTx = s.inTx ∧ s'.db = s.db := by
  induction line generalizing s with
  | nil => exact ⟨s, rfl, rfl, (append_nil _).symm, rfl, rfl⟩
  | cons c line ih =>
    rw [mem_cons, not_or] at hline
    rw [length_cons] at hlen
    rcases recoverByte_store (s := s) (Ne.symm hline.1) (by omega)
      with ⟨s1, hs1, hpos1, hfront1, hinTx1, hdb1⟩
    rcases ih (s := s1) hline.2 (by omega) with ⟨s2, hs2, hpos2, hfront2, hinTx2, hdb2⟩
    refine ⟨s2, ?_, ?_, ?_, hinTx2.trans hinTx1, hdb2.trans hdb1⟩
    · rw [runCalls, hs1, bind_some, hs2]
    · rw [hpos2, hpos1, length_cons]
      omega
    · rw [hfront2, hfront1, append_assoc, singleton_append]

/-- Behind a line in the buffer its newline is replaced by a terminator, whatever is left behind it.
-/
theorem exists_terminated {buf : CArray UInt8 MAX_LINE} {pos : Nat} {line : CString}
    (hlen : line.bytes.length ≤ MAX_LINE - 2) (hpos : pos = line.bytes.length)
    (hfront : buf.front pos = line.bytes) :
    ∃ buf1 buf2, buf.set pos newline = some buf1 ∧ buf1.set pos 0 = some buf2 ∧
      ofBytes (buf2.front MAX_LINE) = line := by
  have hlt : pos < MAX_LINE := by
    rw [MAX_LINE] at hlen ⊢
    omega
  rcases buf.exists_push hlt newline with ⟨buf1, hset1, -⟩
  rcases buf1.exists_push hlt 0 with ⟨buf2, hset2, hfront2⟩
  refine ⟨buf1, buf2, hset1, hset2, ?_⟩
  rcases buf2.exists_front_append (Nat.succ_le_of_lt hlt) with ⟨rest, hrest⟩
  rw [hrest, hfront2, CArray.front_set hset1 le_rfl, hfront, append_assoc, singleton_append,
    ofBytes_terminated]

/-- At the start of a line. -/
structure Ready (s : Scan) (inTx : Bool) (db : File) : Prop where
  pos : s.pos = 0
  inTx : s.inTx = inTx
  db : s.db = db

theorem scan_line {inTx' : Bool} {db' : File} (h : Ready s inTx db) {line : CString}
    (hline : newline ∉ line.bytes) (hlen : line.bytes.length ≤ MAX_LINE - 2)
    (hhandle : handleLine inTx db line = some (inTx', db')) :
    ∃ s', runCalls recoverByte s (line.bytes ++ [newline]) = some s' ∧ Ready s' inTx' db' := by
  have hpos := h.pos
  rcases scan_partial (s := s) hline (by omega) with ⟨s1, hs1, hpos1, hfront1, hinTx1, hdb1⟩
  have hwhole : s1.buf.front s1.pos = line.bytes := by
    rw [hfront1, hpos, CArray.front, take_zero, nil_append]
  rcases exists_terminated hlen (by omega) hwhole with ⟨buf1, buf2, hset1, hset2, hstring⟩
  refine ⟨⟨buf2, 0, inTx', db'⟩, ?_, rfl, rfl, rfl⟩
  rw [runCalls_append, hs1]
  simp [runCalls, recoverByte, hset1, hset2, hstring, hinTx1, h.inTx, hdb1, h.db, hhandle]

/-! ## The lines of a transaction -/

def asLine (line : CString) : List UInt8 := line.bytes ++ [newline]

def appendLines (file : File) (lines : List CString) : File :=
  lines.foldl (fun file line => some (file.getD [] ++ asLine line)) file

namespace WalCall

/-- The line of the log with the data. -/
def record (c : WalCall) : CString := setLine c.key c.value

def bytes (c : WalCall) : List UInt8 := asLine beginLine ++ (asLine c.record ++ asLine commitLine)

/-- Key and value are without newlines and short enough for a line. -/
structure Fits (c : WalCall) : Prop where
  key : newline ∉ c.key.bytes
  value : newline ∉ c.value.bytes
  length : (literal "SET ").length + c.key.bytes.length + (literal " ").length +
    c.value.bytes.length ≤
    MAX_LINE - 2

end WalCall

variable {c : WalCall}

theorem appendFile_eq (file : File) {line : CString} (hlen : line.bytes.length ≤ MAX_LINE - 2) :
    appendFile file line = some (some (file.getD [] ++ asLine line)) := by
  have htext : (line.bytes ++ [newline]).length ≤ MAX_LINE - 1 := by
    rw [length_append, length_singleton, MAX_LINE] at *
    omega
  have hwhole : (line.bytes ++ [newline]).take (MAX_LINE - 1) = line.bytes ++ [newline] :=
    take_of_length_le htext
  simp only [appendFile, hwhole, take_left, asLine, if_pos (htext.trans (Nat.sub_le _ _))]

theorem WalCall.Fits.bytes_record (h : c.Fits) :
    c.record.bytes = literal "SET " ++ (c.key.bytes ++ (literal " " ++ c.value.bytes)) := by
  have htext : (ofLiteral "SET " ++ c.key ++ .ofLiteral " " ++ c.value).bytes =
      literal "SET " ++ (c.key.bytes ++ (literal " " ++ c.value.bytes)) := by
    simp only [bytes_append, append_assoc]
    rfl
  have hlen := h.length
  simp only [record, setLine, htext]
  apply take_of_length_le
  simp only [length_append]
  omega

theorem WalCall.Fits.length_record (h : c.Fits) : c.record.bytes.length ≤ MAX_LINE - 2 := by
  have hlen := h.length
  rw [h.bytes_record]
  simp only [length_append]
  omega

theorem WalCall.Fits.newline_notMem (h : c.Fits) : newline ∉ c.record.bytes := by
  have hset : newline ∉ literal "SET " := by decide
  have hspace : newline ∉ literal " " := by decide
  rw [h.bytes_record]
  simp only [mem_append, not_or]
  exact ⟨hset, h.key, hspace, h.value⟩

theorem handleLine_begin (inTx : Bool) (db : File) :
    handleLine inTx db beginLine = some (true, db) := by
  rw [handleLine, if_pos (by decide)]

theorem handleLine_commit (inTx : Bool) (db : File) :
    handleLine inTx db commitLine = some (false, db) := by
  rw [handleLine, if_neg (by decide), if_pos (by decide)]

/-- Inside a transaction a record is applied at once. -/
theorem handleLine_record (h : c.Fits) (db : File) :
    handleLine true db c.record = some (true, some (db.getD [] ++ asLine c.record)) := by
  have hother : c.record.strncmpEq (.ofLiteral "TRANSACTION") 11 = false := by
    rw [strncmpEq, decide_eq_false_iff_not]
    intro heq
    have hfirst : some (83 : UInt8) = some 84 := congrArg List.head? heq
    exact absurd hfirst (by decide)
  have hset : c.record.strncmpEq (.ofLiteral "SET") 3 = true := by
    rfl
  rw [handleLine, hother, hset, appendFile_eq db h.length_record]
  rfl

theorem walCall_eq (h : c.Fits) (wal : File) :
    walCall wal c = some (some (wal.getD [] ++ c.bytes)) := by
  have hwrite : appendTransaction wal c.key c.value = some (some (wal.getD [] ++ c.bytes)) := by
    have hbegin : appendFile wal beginLine = _ := appendFile_eq wal (by decide)
    have hcommit : ∀ file, appendFile file commitLine = _ := fun file =>
      appendFile_eq file (by decide)
    have hrecord : ∀ file, appendFile file (setLine c.key c.value) = _ :=
      fun file => appendFile_eq file h.length_record
    simp [appendTransaction, hbegin, hrecord, hcommit, WalCall.bytes, WalCall.record]
  rw [walCall, writeNosync, crashAfterWal, hwrite, ite_self]

theorem runCalls_walCall {calls : List WalCall} (h : ∀ c ∈ calls, c.Fits) (wal : File) :
    ∃ wal', runCalls walCall wal calls = some wal' ∧
      wal'.getD [] = wal.getD [] ++ calls.flatMap WalCall.bytes := by
  induction calls generalizing wal with
  | nil => exact ⟨wal, rfl, (append_nil _).symm⟩
  | cons c calls ih =>
    rcases ih (fun d hd => h d (mem_cons_of_mem _ hd)) (some (wal.getD [] ++ c.bytes))
      with ⟨wal', hrun, hbytes⟩
    refine ⟨wal', ?_, ?_⟩
    · rw [runCalls, walCall_eq (h c mem_cons_self), bind_some, hrun]
    · rw [hbytes, getD_some, flatMap_cons, append_assoc]

/-! ## Recovery from a part of the log -/

/-- The transactions whose COMMIT line is complete in the log. -/
def committed : List WalCall → List UInt8 → List WalCall
  | [], _ => []
  | c :: calls, log =>
    if c.bytes.length ≤ log.length then c :: committed calls (log.drop c.bytes.length) else []

/-- The transaction that the log breaks off in, if its SET line is complete. -/
def brokenOff : List WalCall → List UInt8 → Option WalCall
  | [], _ => none
  | c :: calls, log =>
    if c.bytes.length ≤ log.length then brokenOff calls (log.drop c.bytes.length)
    else if (asLine beginLine ++ asLine c.record).length ≤ log.length then some c
    else none

variable {calls : List WalCall} {log : List UInt8}

/-- The transactions that the recovery applies. -/
def applied (calls : List WalCall) (log : List UInt8) : List WalCall :=
  committed calls log ++ (brokenOff calls log).toList

theorem applied_whole : applied (c :: calls) (c.bytes ++ log) = c :: applied calls log := by
  have hle : c.bytes.length ≤ (c.bytes ++ log).length := by
    rw [length_append]
    exact Nat.le_add_right _ _
  rw [applied, committed, brokenOff, if_pos hle, if_pos hle, drop_left, cons_append, applied]

theorem applied_none (h : log.length < (asLine beginLine ++ asLine c.record).length) :
    applied (c :: calls) log = [] := by
  have hlt : ¬c.bytes.length ≤ log.length := by
    rw [WalCall.bytes, ← append_assoc, length_append]
    omega
  rw [applied, committed, brokenOff, if_neg hlt, if_neg hlt, if_neg (Nat.not_le_of_lt h)]
  rfl

theorem applied_brokenOff (hle : (asLine beginLine ++ asLine c.record).length ≤ log.length)
    (hlt : log.length < c.bytes.length) : applied (c :: calls) log = [c] := by
  rw [applied, committed, brokenOff, if_neg (Nat.not_le_of_lt hlt),
    if_neg (Nat.not_le_of_lt hlt), if_pos hle]
  rfl

theorem length_asLine (line : CString) : (asLine line).length = line.bytes.length + 1 := by
  rw [asLine, length_append, length_singleton]

theorem prefix_line {line : CString} {rest : List UInt8} (h : log <+: asLine line ++ rest) :
    log <+: line.bytes ∨ ∃ log', log = asLine line ++ log' ∧ log' <+: rest := by
  rcases prefix_or_prefix_of_prefix h (prefix_append (asLine line) rest) with hin | hout
  · rcases prefix_concat_iff.1 hin with rfl | hin
    · exact .inr ⟨[], (append_nil _).symm, nil_prefix⟩
    · exact .inl hin
  · rcases hout with ⟨log', rfl⟩
    exact .inr ⟨log', rfl, (prefix_append_right_inj _).1 h⟩

theorem scan_next {inTx' : Bool} {db' : File} (h : Ready s inTx db) {line : CString}
    (hline : newline ∉ line.bytes) (hlen : line.bytes.length ≤ MAX_LINE - 2)
    (hhandle : handleLine inTx db line = some (inTx', db')) {rest : List UInt8}
    (hlog : log <+: asLine line ++ rest) :
    (log.length ≤ line.bytes.length ∧ ∃ s', runCalls recoverByte s log = some s' ∧ s'.db = db) ∨
      ∃ log' s', log = asLine line ++ log' ∧ log' <+: rest ∧
        runCalls recoverByte s log = runCalls recoverByte s' log' ∧ Ready s' inTx' db' := by
  rcases prefix_line hlog with hpart | ⟨log', rfl, hlog'⟩
  · have hpos := h.pos
    have hle := hpart.length_le
    rcases scan_partial (s := s) (fun hmem => hline (hpart.subset hmem)) (by omega)
      with ⟨s', hs', -, -, -, hdb⟩
    exact .inl ⟨hle, s', hs', hdb.trans h.db⟩
  · rcases scan_line h hline hlen hhandle with ⟨s', hs', h'⟩
    refine .inr ⟨log', s', rfl, hlog', ?_, h'⟩
    rw [runCalls_append, asLine, hs', bind_some]

theorem runCalls_recoverByte (hfits : ∀ c ∈ calls, c.Fits)
    (hlog : log <+: calls.flatMap WalCall.bytes)
    (h : Ready s inTx db) : ∃ s', runCalls recoverByte s log = some s' ∧
      s'.db = appendLines db ((applied calls log).map WalCall.record) := by
  induction calls generalizing log s inTx db with
  | nil =>
    obtain rfl := prefix_nil.1 hlog
    exact ⟨s, rfl, h.db⟩
  | cons c calls ih =>
    have hc := hfits c mem_cons_self
    rw [flatMap_cons, WalCall.bytes, append_assoc, append_assoc] at hlog
    -- the log may break off in each of the three lines
    rcases scan_next h (by decide) (by decide) (handleLine_begin inTx db) hlog with
      ⟨hle, s', hs', hdb⟩ | ⟨log1, s1, rfl, hlog1, hrun1, h1⟩
    · refine ⟨s', hs', ?_⟩
      rw [hdb, applied_none]
      · rfl
      · rw [length_append, length_asLine]
        omega
    rcases scan_next h1 hc.newline_notMem hc.length_record (handleLine_record hc db) hlog1 with
      ⟨hle, s', hs', hdb⟩ | ⟨log2, s2, rfl, hlog2, hrun2, h2⟩
    · refine ⟨s', hrun1.trans hs', ?_⟩
      rw [hdb, applied_none]
      · rfl
      · rw [length_append, length_append, length_asLine, length_asLine]
        omega
    rcases scan_next h2 (by decide) (by decide) (handleLine_commit true _) hlog2 with
      ⟨hle, s', hs', hdb⟩ | ⟨log3, s3, rfl, hlog3, hrun3, h3⟩
    · refine ⟨s', (hrun1.trans hrun2).trans hs', ?_⟩
      rw [hdb, applied_brokenOff]
      · rfl
      · simp only [length_append]
        omega
      · simp only [WalCall.bytes, length_append, length_asLine]
        omega
    rcases ih (fun d hd => hfits d (mem_cons_of_mem _ hd)) hlog3 h3 with ⟨s', hs', hdb⟩
    refine ⟨s', ((hrun1.trans hrun2).trans hrun3).trans hs', ?_⟩
    have hwhole : asLine beginLine ++ (asLine c.record ++ (asLine commitLine ++ log3)) =
      c.bytes ++ log3 := by
      simp [WalCall.bytes]
    rw [hdb, hwhole, applied_whole]
    rfl

/-- Every transaction with a complete SET line is applied, committed or not. -/
theorem recover_eq (buf : CArray UInt8 MAX_LINE) (hfits : ∀ c ∈ calls, c.Fits)
    (hlog : log <+: calls.flatMap WalCall.bytes) (db : File) :
    recover buf log db = some (appendLines db ((applied calls log).map WalCall.record)) := by
  rcases runCalls_recoverByte hfits hlog (s := ⟨buf, 0, false, db⟩) ⟨rfl, rfl, rfl⟩
    with ⟨s, hs, hdb⟩
  rw [recover, hs, map_some, hdb]

theorem length_appendLines (db : File) (lines : List CString) :
    ((appendLines db lines).getD []).length =
      (db.getD []).length + (lines.map fun line => (asLine line).length).sum := by
  induction lines generalizing db with
  | nil => rfl
  | cons line lines ih =>
    have hnext := ih (some (db.getD [] ++ asLine line))
    rw [getD_some, length_append] at hnext
    rwa [map_cons, sum_cons, ← add_assoc]

/-- The recovery applies exactly the committed transactions if and only if the log does not end
between the end of a SET line and the end of its COMMIT line. -/
theorem recovery_applies_committed_iff (calls : List WalCall) (hfits : ∀ c ∈ calls, c.Fits) :
    ∃ wal, runCalls walCall none calls = some wal ∧
      ∀ log, log <+: wal.getD [] → ∀ (buf : CArray UInt8 MAX_LINE) (db : File),
        recover buf log db = some (appendLines db ((committed calls log).map WalCall.record)) ↔
          brokenOff calls log = none := by
  rcases runCalls_walCall hfits none with ⟨wal, hrun, hbytes⟩
  refine ⟨wal, hrun, ?_⟩
  intro log hlog buf db
  rw [hbytes, getD_none] at hlog
  rw [recover_eq buf hfits hlog db, applied]
  constructor
  · intro heq
    cases hbroken : brokenOff calls log with
    | none => rfl
    | some c =>
      -- the file would be longer by the line that did not commit
      rw [hbroken] at heq
      have hlen := congrArg (fun file : File => (file.getD []).length) (Option.some.inj heq)
      simp only [length_appendLines, map_append, sum_append, toList_some,
        map_cons, sum_cons, length_asLine] at hlen
      omega
  · intro hnone
    rw [hnone, toList_none, append_nil]

def setAB : WalCall := ⟨false, .ofLiteral "a", .ofLiteral "b"⟩

theorem setAB_fits : setAB.Fits := ⟨by decide, by decide, by decide⟩

-- The same transaction twice, the second time in a process that crashes.
theorem recovery_applies_committed_twice :
    ∃ wal, runCalls walCall none [setAB, { setAB with crash := true }] = some wal ∧
      ∀ log, log <+: wal.getD [] → ∀ (buf : CArray UInt8 MAX_LINE) (db : File),
        recover buf log db = some (appendLines db
            ((committed [setAB, { setAB with crash := true }] log).map WalCall.record)) ↔
          brokenOff [setAB, { setAB with crash := true }] log = none := by
  apply recovery_applies_committed_iff
  intro c hc
  rcases mem_pair.1 hc with rfl | rfl
  · exact setAB_fits
  · exact ⟨setAB_fits.key, setAB_fits.value, setAB_fits.length⟩

/-- The crash comes after the SET line and before the COMMIT line; the recovery applies the line. -/
theorem uncommitted_set_is_applied : walCall none setAB = some (some setAB.bytes) ∧
      asLine beginLine ++ asLine setAB.record <+: setAB.bytes ∧
      committed [setAB] (asLine beginLine ++ asLine setAB.record) = [] ∧
      recover (CArray.fill 0) (asLine beginLine ++ asLine setAB.record) none =
        some (some (literal "SET a b" ++ [newline])) := by
  refine ⟨walCall_eq setAB_fits none, ?_, by decide, by decide +kernel⟩
  exact prefix_append _ _

end SystemsLab.WalDemo
