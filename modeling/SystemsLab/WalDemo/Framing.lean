import SystemsLab.WalDemo.Recovery

/-!
# Which lines come out of the log again

`append_file` has room for `MAX_LINE - 2` bytes and a newline.  One byte more, and the newline is
cut off while the length that `snprintf` returns still counts it, so that the terminator is written
in its place.
-/

namespace SystemsLab.WalDemo

open CallSequence List Option

/-! ## The loop without its body -/

/-- The lines that the loop of `recover` finds. -/
def splitLines : CArray UInt8 MAX_LINE → Nat → List UInt8 → Option (List CString)
  | _, _, [] => some []
  | buf, pos, c :: wal => do
      let buf ← buf.set pos c
      if c = newline then do
        let buf ← buf.set pos 0
        let lines ← splitLines buf 0 wal
        some (.ofBytes (buf.front MAX_LINE) :: lines)
      else
        let pos := pos + 1
        splitLines buf (if MAX_LINE - 1 ≤ pos then MAX_LINE - 2 else pos) wal

/-- `recover` handles the lines in their order. -/
def handleLines (inTx : Bool) (db : File) (lines : List CString) : Option (Bool × File) :=
  runCalls (fun st line => handleLine st.1 st.2 line) (inTx, db) lines

theorem handleLines_cons (inTx : Bool) (db : File) (line : CString) (lines : List CString) :
    handleLines inTx db (line :: lines) = (handleLine inTx db line).bind fun st =>
      handleLines st.1 st.2 lines :=
  rfl

variable {pos : Nat} {line : CString} {rest : List UInt8}

theorem runCalls_recoverByte_eq (buf : CArray UInt8 MAX_LINE) (pos : Nat) (inTx : Bool) (db : File)
    (wal : List UInt8) :
    (runCalls recoverByte ⟨buf, pos, inTx, db⟩ wal).map (fun s => (s.inTx, s.db)) =
      (splitLines buf pos wal).bind (handleLines inTx db) := by
  induction wal generalizing buf pos inTx db with
  | nil => rfl
  | cons c wal ih =>
    rw [runCalls, recoverByte, splitLines]
    cases buf.set pos c with
    | none => rfl
    | some buf1 =>
      by_cases hc : c = newline
      · simp only [bind_eq_bind, bind_some, if_pos hc]
        cases buf1.set pos 0 with
        | none => rfl
        | some buf2 =>
          simp only [bind_some, bind_assoc, handleLines_cons]
          cases handleLine inTx db (.ofBytes (buf2.front MAX_LINE)) with
          | none =>
            -- the loop ends here, whatever lines there are behind this one
            cases splitLines buf2 0 wal with
            | none => rfl
            | some lines => rfl
          | some st => simp [ih]
      · simp [if_neg hc, ih]

/-- The recovery is the handling of the lines that the loop finds. -/
theorem recover_eq_splitLines (buf : CArray UInt8 MAX_LINE) (wal : List UInt8) (db : File) :
    recover buf wal db = ((splitLines buf 0 wal).bind (handleLines false db)).map Prod.snd := by
  rw [← runCalls_recoverByte_eq, recover, Option.map_map]
  rfl

theorem splitLines_partial {s s' : Scan} {bytes : List UInt8} (hbytes : newline ∉ bytes)
    (hrun : runCalls recoverByte s bytes = some s') :
    splitLines s.buf s.pos (bytes ++ rest) = splitLines s'.buf s'.pos rest := by
  induction bytes generalizing s with
  | nil =>
    rw [runCalls, some.injEq] at hrun
    rw [hrun, nil_append]
  | cons c bytes ih =>
    rw [mem_cons, not_or] at hbytes
    rw [runCalls, recoverByte] at hrun
    rw [cons_append, splitLines]
    cases hset : s.buf.set s.pos c with
    | none =>
      rw [hset] at hrun
      cases hrun
    | some buf =>
      simp only [hset, if_neg (Ne.symm hbytes.1)] at hrun ⊢
      exact ih hbytes.2 hrun

theorem splitLines_line (buf : CArray UInt8 MAX_LINE) (rest : List UInt8)
    (hline : newline ∉ line.bytes) (hlen : line.bytes.length ≤ MAX_LINE - 2) :
    ∃ buf', splitLines buf 0 (asLine line ++ rest) = (splitLines buf' 0 rest).map (line :: ·) := by
  have hroom : 0 + line.bytes.length ≤ MAX_LINE - 2 := by omega
  rcases scan_partial (s := ⟨buf, 0, false, none⟩) hline hroom with ⟨s, hs, hpos, hfront, -, -⟩
  rcases exists_terminated hlen (hpos.trans (zero_add _)) (hfront.trans (nil_append _)) with
    ⟨buf1, buf2, hset1, hset2, hstring⟩
  refine ⟨buf2, ?_⟩
  rw [asLine, append_assoc, splitLines_partial hline hs, singleton_append, splitLines]
  simp only [hset1, hset2, hstring, bind_eq_bind, bind_some]
  cases splitLines buf2 0 rest with
  | none => rfl
  | some lines => rfl

/-- The loop stays inside its buffer and finds one line for each newline. -/
theorem exists_splitLines (buf : CArray UInt8 MAX_LINE) (hpos : pos ≤ MAX_LINE - 2)
    (wal : List UInt8) :
    ∃ lines, splitLines buf pos wal = some lines ∧ lines.length = wal.count newline := by
  induction wal generalizing buf pos with
  | nil => exact ⟨[], rfl, rfl⟩
  | cons c wal ih =>
    have hlt : pos < MAX_LINE := Nat.lt_of_le_of_lt hpos (by decide)
    rcases buf.exists_set hlt c with ⟨buf1, hset1, -⟩
    by_cases hc : c = newline
    · rcases buf1.exists_set hlt 0 with ⟨buf2, hset2, -⟩
      rcases ih buf2 (Nat.zero_le _) with ⟨lines, hlines, hcount⟩
      refine ⟨.ofBytes (buf2.front MAX_LINE) :: lines, ?_, ?_⟩
      · simp [splitLines, hset1, hset2, hlines, if_pos hc]
      · rw [length_cons, hcount, hc, count_cons_self]
    · have hnext : (if MAX_LINE - 1 ≤ pos + 1 then MAX_LINE - 2 else pos + 1) ≤ MAX_LINE - 2 := by
        split
        · exact le_rfl
        · omega
      rcases ih buf1 hnext with ⟨lines, hlines, hcount⟩
      refine ⟨lines, ?_, ?_⟩
      · simp only [splitLines, hset1, hlines, bind_eq_bind, bind_some, if_neg hc]
      · rw [hcount, count_cons_of_ne hc]

/-! ## Writing and reading -/

variable {lines : List CString} {file : File}

/-- What `append_file` writes for a line of at most `MAX_LINE - 1` bytes: the longest ones end with
the terminator of the buffer. -/
def record (line : CString) : List UInt8 :=
  if line.bytes.length ≤ MAX_LINE - 2 then asLine line else line.bytes ++ [0]

theorem appendFile_record (file : File) (hlen : line.bytes.length ≤ MAX_LINE - 1) :
    appendFile file line = some (some (file.getD [] ++ record line)) := by
  by_cases hshort : line.bytes.length ≤ MAX_LINE - 2
  · rw [record, if_pos hshort, appendFile_eq file hshort]
  · have hlong : line.bytes.length = MAX_LINE - 1 := by
      omega
    have hcut : (line.bytes ++ [newline]).take (MAX_LINE - 1) = line.bytes := by
      rw [← hlong, take_left]
    have hwritten : (line.bytes ++ [0]).take (line.bytes ++ [newline]).length =
      line.bytes ++ [0] := by
      simp
    have hfits : (line.bytes ++ [newline]).length ≤ MAX_LINE := by
      rw [length_append, hlong]
      decide
    simp only [appendFile, hcut, hwritten, if_pos hfits, record, if_neg hshort]

theorem count_record (hline : newline ∉ line.bytes) :
    (record line).count newline = if line.bytes.length ≤ MAX_LINE - 2 then 1 else 0 := by
  rw [record]
  split
  · rw [asLine, count_append, count_eq_zero_of_not_mem hline, count_singleton_self]
  · rw [count_append, count_eq_zero_of_not_mem hline]
    rfl

theorem runCalls_appendFile (hlen : ∀ line ∈ lines, line.bytes.length ≤ MAX_LINE - 1)
    (file : File) :
    ∃ wal, runCalls appendFile file lines = some wal ∧
      wal.getD [] = file.getD [] ++ lines.flatMap record := by
  induction lines generalizing file with
  | nil => exact ⟨file, rfl, (append_nil _).symm⟩
  | cons line lines ih =>
    rcases ih (fun l hl => hlen l (mem_cons_of_mem _ hl)) (some (file.getD [] ++ record line)) with
      ⟨wal, hrun, hbytes⟩
    refine ⟨wal, ?_, ?_⟩
    · rw [runCalls, appendFile_record file (hlen line mem_cons_self), bind_some, hrun]
    · rw [hbytes, getD_some, flatMap_cons, append_assoc]

theorem splitLines_records (hline : ∀ line ∈ lines, newline ∉ line.bytes)
    (hshort : ∀ line ∈ lines, line.bytes.length ≤ MAX_LINE - 2) (buf : CArray UInt8 MAX_LINE) :
    splitLines buf 0 (lines.flatMap record) = some lines := by
  induction lines generalizing buf with
  | nil => rfl
  | cons line lines ih =>
    have hfirst := hshort line mem_cons_self
    rcases splitLines_line buf (lines.flatMap record) (hline line mem_cons_self) hfirst
      with ⟨buf', hsplit⟩
    rw [flatMap_cons, record, if_pos hfirst, hsplit,
      ih (fun l hl => hline l (mem_cons_of_mem _ hl)) (fun l hl => hshort l (mem_cons_of_mem _ hl)),
      map_some]

/-- A line without a newline of its own is missing in the end. -/
theorem count_records (hline : ∀ line ∈ lines, newline ∉ line.bytes) :
    (lines.flatMap record).count newline = lines.countP fun line => line.bytes.length ≤
    MAX_LINE - 2 := by
  induction lines with
  | nil => rfl
  | cons line lines ih =>
    rw [flatMap_cons, count_append, count_record (hline line mem_cons_self),
      ih fun l hl => hline l (mem_cons_of_mem _ hl), countP_cons, add_comm]
    simp

/-- Lines of at most `MAX_LINE - 1` bytes that were appended to an empty file are delivered again if
and only if none of them has `MAX_LINE - 1` bytes. -/
theorem splitLines_log_iff (lines : List CString) (hline : ∀ line ∈ lines, newline ∉ line.bytes)
    (hlen : ∀ line ∈ lines, line.bytes.length ≤ MAX_LINE - 1) (file : File)
    (hempty : file.getD [] = []) :
    ∃ wal, runCalls appendFile file lines = some wal ∧ ∀ buf : CArray UInt8 MAX_LINE,
      splitLines buf 0 (wal.getD []) = some lines ↔
        ∀ line ∈ lines, line.bytes.length ≤ MAX_LINE - 2 := by
  rcases runCalls_appendFile hlen file with ⟨wal, hrun, hbytes⟩
  rw [hempty, nil_append] at hbytes
  refine ⟨wal, hrun, fun buf => ?_⟩
  rw [hbytes]
  refine ⟨fun hsplit => ?_, fun hshort => splitLines_records hline hshort buf⟩
  rcases exists_splitLines buf (Nat.zero_le _) (lines.flatMap record) with ⟨found, hfound, hcount⟩
  rw [hsplit, some.injEq] at hfound
  rw [← hfound, count_records hline] at hcount
  intro line hmem
  exact of_decide_eq_true (countP_eq_length.1 hcount.symm line hmem)

/-- One byte short of the buffer. -/
def longLine : CString := .ofBytes (List.replicate 255 97)

/-- A line of 254 bytes still has room for its newline. -/
def fittingLines : List CString := [beginLine, .ofBytes (List.replicate 254 97), commitLine]

theorem splitLines_log_demo : ∃ wal, runCalls appendFile (some []) fittingLines = some wal ∧
      ∀ buf : CArray UInt8 MAX_LINE, splitLines buf 0 (wal.getD []) = some fittingLines := by
  rcases splitLines_log_iff fittingLines (by decide +kernel) (by decide +kernel) (some []) rfl with
    ⟨wal, hrun, hsplit⟩
  exact ⟨wal, hrun, fun buf => (hsplit buf).2 (by decide +kernel)⟩

/-- A line of 255 bytes takes the line behind it with it. -/
theorem long_line_swallows_next : (runCalls appendFile (some []) [longLine, commitLine]).bind
        (fun wal => splitLines (CArray.fill 0) 0 (wal.getD [])) =
        some [.ofBytes (List.replicate 254 97)] := by
  decide +kernel

end SystemsLab.WalDemo
