import SystemsLab.CLib.Scanf
import SystemsLab.Data.Runs

/-!
# Counting the words of a file with several threads

`word_count_using_thread.c` cuts a file into `MAX_THREADS` segments and starts a thread for each.  A
thread reads the file with `pread` and writes only to its own `ThreadData`; `main` reads the counts
after `pthread_join`.  So the total is the sum of what `count_words` computes for each segment,
whatever the order in which the threads run.

The file is a list of bytes.  A `pread` may return fewer bytes than it was asked for, but at least
one if there is one: `short pos` is one less than the number of bytes that a read at `pos` is
limited to. Failing system calls and the text printed by the threads are not modelled.

A segment other than the first begins at the first delimiter at or after its cut `i * chunk_size`,
and the segment before it ends at the cut: a word that goes across the cut is counted where it
starts.  But a word whose first byte is at the cut itself is in neither segment
(`totalWords_add_lost`).
-/

namespace SystemsLab.WordCount

def MAX_THREADS : Nat := 4

def BUF_SIZE : Nat := 8192

/-- `isspace((unsigned char)c)` -/
def isDelim (c : UInt8) : Bool := Scanf.isSpace c

/-- The bytes that `pread(fd, buf, count, pos)` puts into the buffer. -/
def pread (file : List UInt8) (short : Nat → Nat) (count pos : Nat) : List UInt8 :=
  (file.drop pos).take (min count (short pos + 1))

/-! ## A thread -/

/-- The local variables `count` and `in_word`. -/
structure Tally where
  count : Nat
  inWord : Bool

/-- The body of the loop over the buffer. -/
def Tally.scan (t : Tally) (c : UInt8) : Tally :=
  if isDelim c then
    if t.inWord then ⟨t.count + 1, false⟩ else t
  else ⟨t.count, true⟩

/-- `while (pos < tdata->end) { .. }`; `none` if the loop takes more than `fuel` rounds. -/
def readLoop (file : List UInt8) (short : Nat → Nat) (stop : Nat) : Nat → Nat → Tally → Option Tally
  | 0, _, _ => none
  | fuel + 1, pos, t =>
    if pos < stop then
      let toRead := if stop - pos < BUF_SIZE then stop - pos else BUF_SIZE
      let buf := pread file short toRead pos
      if buf.length = 0 then some t
      else readLoop file short stop fuel (pos + buf.length) (buf.foldl Tally.scan t)
    else some t

/-- The word count of the segment from `start` to `stop`. -/
def countWords (file : List UInt8) (short : Nat → Nat) (start stop : Nat) : Option Nat := do
  let t ← readLoop file short stop (stop - start + 1) start ⟨0, false⟩
  some (if t.inWord then t.count + 1 else t.count)

/-! ## Cutting the file -/

/-- `while (pread(fd, &c, 1, start) == 1 && !is_delim(c)) start++;` -/
def adjust (file : List UInt8) (short : Nat → Nat) : Nat → Nat → Option Nat
  | 0, _ => none
  | fuel + 1, start =>
    match pread file short 1 start with
    | [c] => if isDelim c then some start else adjust file short fuel (start + 1)
    | _ => some start

def chunkSize (file : List UInt8) : Nat := file.length / MAX_THREADS

/-- `tdata[i].end` -/
def segmentEnd (file : List UInt8) (i : Nat) : Nat :=
  if i = MAX_THREADS - 1 then file.length else (i + 1) * chunkSize file

/-- `tdata[i].start`, after the adjustment. -/
def segmentStart (file : List UInt8) (short : Nat → Nat) (i : Nat) : Option Nat :=
  if 0 < i then adjust file short (file.length + 1) (i * chunkSize file)
  else some (i * chunkSize file)

def totalWords (file : List UInt8) (short : Nat → Nat) : Nat → Option Nat
  | 0 => some 0
  | k + 1 => do
      let total ← totalWords file short k
      let start ← segmentStart file short k
      let count ← countWords file short start (segmentEnd file k)
      some (total + count)

/-- The number that `main` prints; an empty file has none. -/
def main (file : List UInt8) (short : Nat → Nat) : Option Nat :=
  if file.length = 0 then none else totalWords file short MAX_THREADS

open Runs List

variable {file : List UInt8} {short : Nat → Nat}

def words (file : List UInt8) : Nat := runs isDelim file

/-! ## Pieces of the file -/

def piece (file : List UInt8) (lo hi : Nat) : List UInt8 := (file.take hi).drop lo

variable {lo hi pos fuel i : Nat}

theorem length_piece (hhi : hi ≤ file.length) : (piece file lo hi).length = hi - lo := by
  rw [piece, length_drop, length_take, Nat.min_eq_left hhi]

theorem piece_append (file : List UInt8) {mid : Nat} (hlo : lo ≤ mid) (hhi : mid ≤ hi) :
    piece file lo mid ++ piece file mid hi = piece file lo hi := by
  calc
    piece file lo mid ++ piece file mid hi
        = ((file.take hi).drop lo).take (mid - lo) ++ ((file.take hi).drop lo).drop (mid - lo) := by
      rw [drop_drop, Nat.add_sub_cancel' hlo, ← drop_take, take_take,
        Nat.min_eq_left hhi, piece, piece]
    _ = piece file lo hi := take_append_drop _ _

theorem pread_eq {count : Nat} :
    pread file short count pos = piece file pos (pos + min count (short pos + 1)) := by
  rw [pread, piece, drop_take, Nat.add_sub_cancel_left]

theorem dropWhile_piece (q : UInt8 → Bool) (lo hi : Nat) :
    piece file (lo + ((file.drop lo).takeWhile q).length) hi = (piece file lo hi).dropWhile q := by
  have hlist : ∀ (l : List UInt8) (k : Nat), (l.take k).drop (l.takeWhile q).length =
    (l.take k).dropWhile q := by
    intro l
    induction l with
    | nil => simp
    | cons c l ih =>
      intro k
      cases k with
      | zero => simp
      | succ k =>
        by_cases hc : q c
        · simp [hc, ih]
        · simp [hc]
  rw [piece, piece, ← drop_drop, drop_take, hlist]

/-! ## A thread counts the words of its segment -/

/-- What the thread has counted once the word it is in has ended. -/
def Tally.closed (t : Tally) : Nat := if t.inWord then t.count + 1 else t.count

theorem scan_closed (t : Tally) (l : List UInt8) :
    (l.foldl Tally.scan t).closed = t.closed + starts isDelim t.inWord l := by
  induction l generalizing t with
  | nil => rfl
  | cons c l ih =>
    rw [foldl_cons, ih, starts]
    by_cases hc : isDelim c = true
    · cases ht : t.inWord <;> simp [Tally.scan, Tally.closed, hc, ht]
    · cases ht : t.inWord <;> simp [Tally.scan, Tally.closed, hc, ht, add_assoc]

/-- The loop reads the bytes from `pos` to the end of the segment, in one piece or in many. -/
theorem readLoop_eq {stop : Nat} (hstop : stop ≤ file.length)
    (hfuel : stop - pos < fuel) (t : Tally) :
    readLoop file short stop fuel pos t = some ((piece file pos stop).foldl Tally.scan t) := by
  induction fuel generalizing pos t with
  | zero => omega
  | succ fuel ih =>
    rw [readLoop]
    by_cases hpos : pos < stop
    · -- a read of `n` bytes, at least one and at most to the end of the segment
      obtain ⟨n, hn, hread, hnpos, hnstop⟩ : ∃ n, n = min
          (if stop - pos < BUF_SIZE then stop - pos else BUF_SIZE) (short pos + 1) ∧
          pread file short (if stop - pos < BUF_SIZE then stop - pos else BUF_SIZE) pos =
            piece file pos (pos + n) ∧ 0 < n ∧ pos + n ≤ stop := by
        have hbuf : 0 < BUF_SIZE := by decide
        refine ⟨_, rfl, pread_eq, ?_, ?_⟩
        · split_ifs <;> omega
        · split_ifs <;> omega
      have hlen : (piece file pos (pos + n)).length = n := by
        rw [length_piece (by omega)]
        omega
      simp only [if_pos hpos, hread, hlen, if_neg (Nat.pos_iff_ne_zero.1 hnpos)]
      rw [ih (by omega), ← foldl_append, piece_append file (by omega) hnstop]
    · have hempty : piece file pos stop = [] := by
        rw [piece, drop_eq_nil_iff, length_take]
        omega
      rw [if_neg hpos, hempty]
      rfl

theorem countWords_eq {start stop : Nat} (hstop : stop ≤ file.length) :
    countWords file short start stop = some (starts isDelim false (piece file start stop)) := by
  have hclosed := scan_closed ⟨0, false⟩ (piece file start stop)
  rw [show Tally.closed ⟨0, false⟩ = 0 from rfl, zero_add] at hclosed
  rw [countWords, readLoop_eq hstop (Nat.lt_succ_self _), ← hclosed]
  rfl

/-! ## The segments -/

theorem adjust_eq {start : Nat} (hfuel : file.length - start < fuel) :
    adjust file short fuel start =
      some (start + ((file.drop start).takeWhile fun c => !isDelim c).length) := by
  induction fuel generalizing start with
  | zero => omega
  | succ fuel ih =>
    have hread : pread file short 1 start = (file.drop start).take 1 := by
      rw [pread, Nat.min_eq_left (Nat.le_add_left 1 _)]
    rw [adjust, hread]
    cases hdrop : file.drop start with
    | nil => rfl
    | cons c rest =>
      have hnext : file.drop (start + 1) = rest := by
        rw [← drop_drop, hdrop]
        rfl
      have hlt : start < file.length := by
        by_contra hge
        rw [drop_eq_nil_of_le (by omega)] at hdrop
        cases hdrop
      by_cases hc : isDelim c = true
      · simp [hc]
      · rw [ih (by omega), hnext]
        simp [hc]
        omega

/-- The cut before the segment `i`. -/
def cut (file : List UInt8) (i : Nat) : Nat := i * chunkSize file

/-- A word starts at the byte `c`. -/
def startsWord (file : List UInt8) (c : Nat) : Bool :=
  (file[c]?.any fun b => !isDelim b) && (c == 0 || file[c - 1]?.any isDelim)

theorem headInRun_eq (l : List UInt8) : headInRun isDelim l = l.head?.any fun b => !isDelim b := by
  cases l with
  | nil => rfl
  | cons b l => rfl

theorem endsIn_take {c : Nat} (hc : c ≤ file.length) :
    endsIn isDelim false (file.take c) = !(c == 0 || file[c - 1]?.any isDelim) := by
  cases c with
  | zero => rfl
  | succ c =>
    rw [take_succ_eq_append_getElem (by omega), endsIn, foldl_concat, Nat.add_sub_cancel,
      getElem?_eq_getElem (by omega)]
    rfl

/-- One for a word that starts at the cut before the segment `i`, unless the segment is empty. -/
def lost (file : List UInt8) (i : Nat) : Nat :=
  if startsWord file (cut file i) = true ∧ cut file i < segmentEnd file i then 1 else 0

/-- The words that start in the segment, with and without the one that starts at the cut. -/
theorem starts_segment (hcut : cut file i ≤ file.length) :
    starts isDelim (endsIn isDelim false (file.take (cut file i)))
      (piece file (cut file i) (segmentEnd file i)) =
      starts isDelim true (piece file (cut file i) (segmentEnd file i)) + lost file i := by
  cases hends : endsIn isDelim false (file.take (cut file i)) with
  | true =>
    -- a word goes across the cut
    rw [endsIn_take hcut, Bool.not_eq_true'] at hends
    rw [lost, startsWord, hends, Bool.and_false]
    rfl
  | false =>
    rw [endsIn_take hcut, Bool.not_eq_false'] at hends
    rw [starts_false, lost, startsWord, hends]
    congr 1
    by_cases hlt : cut file i < segmentEnd file i
    · have hhead : (piece file (cut file i) (segmentEnd file i)).head? = file[cut file i]? := by
        rw [piece, head?_drop, getElem?_take_of_lt hlt]
      rw [headInRun_eq, hhead]
      simp [hlt]
    · have hempty : piece file (cut file i) (segmentEnd file i) = [] := by
        rw [piece, drop_eq_nil_iff, length_take]
        omega
      rw [hempty, if_neg (by simp [headInRun]), if_neg (fun h => hlt h.2)]

theorem cut_le (i : Nat) (hi : i ≤ MAX_THREADS) : cut file i ≤ file.length := by
  calc
    i * chunkSize file ≤ MAX_THREADS * chunkSize file := Nat.mul_le_mul_right _ hi
    _ ≤ file.length := Nat.mul_div_le _ _

theorem cut_le_segmentEnd (hi : i < MAX_THREADS) : cut file i ≤ segmentEnd file i := by
  rw [segmentEnd]
  split_ifs
  · exact cut_le i hi.le
  · exact Nat.mul_le_mul_right _ (Nat.le_succ i)

theorem segmentEnd_le (hi : i < MAX_THREADS) : segmentEnd file i ≤ file.length := by
  rw [segmentEnd]
  split_ifs
  · exact le_rfl
  · exact cut_le (i + 1) hi

theorem segmentEnd_eq_cut (hi : i + 1 < MAX_THREADS) : segmentEnd file i = cut file (i + 1) := by
  rw [segmentEnd, if_neg (by omega), cut]

theorem countSegment_eq (file : List UInt8) (short : Nat → Nat) (hpos : 0 < i)
    (hi : i < MAX_THREADS) :
    ∃ start, segmentStart file short i = some start ∧
      countWords file short start (segmentEnd file i) =
        some (starts isDelim true (piece file (cut file i) (segmentEnd file i))) := by
  refine ⟨_, by rw [segmentStart, if_pos hpos, adjust_eq (by omega)], ?_⟩
  rw [countWords_eq (segmentEnd_le hi), dropWhile_piece, starts_dropWhile, cut]

/-! ## The total -/

/-- The words that start at one of the first `k` cuts between segments. -/
def lostUpTo (file : List UInt8) (k : Nat) : Nat :=
  ((List.range k).map fun i => lost file (i + 1)).sum

theorem totalWords_add_lost (file : List UInt8) (short : Nat → Nat) {k : Nat}
    (hk : k < MAX_THREADS) :
    ∃ total, totalWords file short (k + 1) = some total ∧
      total + lostUpTo file k = starts isDelim false (file.take (segmentEnd file k)) := by
  induction k with
  | zero =>
    refine ⟨starts isDelim false (piece file 0 (segmentEnd file 0)), ?_, rfl⟩
    simp [totalWords, segmentStart, countWords_eq (segmentEnd_le hk)]
  | succ k ih =>
    rcases ih (by omega) with ⟨total, htotal, hsum⟩
    rcases countSegment_eq file short (Nat.succ_pos k) hk with ⟨start, hstart, hcount⟩
    refine ⟨total + starts isDelim true (piece file (cut file (k + 1)) (segmentEnd file (k + 1))),
      ?_, ?_⟩
    · rw [totalWords, htotal]
      simp [hstart, hcount]
    · have hlost : lostUpTo file (k + 1) = lostUpTo file k + lost file (k + 1) := by
        simp [lostUpTo, range_succ]
      -- the file up to the end of the segment is the file up to its cut and the segment
      have htake : file.take (segmentEnd file (k + 1)) = file.take (cut file (k + 1)) ++
          piece file (cut file (k + 1)) (segmentEnd file (k + 1)) :=
        (piece_append file (Nat.zero_le _) (cut_le_segmentEnd hk)).symm
      rw [segmentEnd_eq_cut hk] at hsum
      rw [htake, starts_append, starts_segment (cut_le _ hk.le), ← hsum, hlost]
      omega

/-- The program prints the number of words without those that start at a cut. -/
theorem main_add_lost (short : Nat → Nat) (hfile : 0 < file.length) :
    ∃ total, main file short = some total ∧
      total + lostUpTo file (MAX_THREADS - 1) = words file := by
  have hlast : MAX_THREADS - 1 < MAX_THREADS := by decide
  rcases totalWords_add_lost file short hlast with ⟨total, htotal, hsum⟩
  refine ⟨total, ?_, ?_⟩
  · rwa [main, if_neg (by omega)]
  · rw [hsum, segmentEnd, if_pos rfl, take_length, words, runs_eq_starts]

/-- A cut with an empty segment behind it is the start of a short file, and so is the last cut,
which never has an empty segment behind it. -/
theorem exists_cut_lt (hfile : 0 < file.length) (hpos : 0 < i) (hi : i < MAX_THREADS) :
    ∃ j, 0 < j ∧ j < MAX_THREADS ∧ cut file j = cut file i ∧ cut file j < segmentEnd file j := by
  rcases Nat.eq_zero_or_pos (chunkSize file) with hchunk | hchunk
  · refine ⟨MAX_THREADS - 1, by decide, by decide, by simp [cut, hchunk], ?_⟩
    rwa [cut, hchunk, mul_zero, segmentEnd]
  · have hnext : cut file i < cut file (i + 1) :=
      Nat.mul_lt_mul_of_pos_right (Nat.lt_succ_self i) hchunk
    refine ⟨i, hpos, hi, rfl, ?_⟩
    rw [segmentEnd]
    split_ifs
    · exact hnext.trans_le (cut_le (i + 1) hi)
    · exact hnext

theorem lostUpTo_eq_zero_iff (hfile : 0 < file.length) :
    lostUpTo file (MAX_THREADS - 1) = 0 ↔ ∀ i, 0 < i → i < MAX_THREADS →
      startsWord file (cut file i) = false := by
  have hzero : lostUpTo file (MAX_THREADS - 1) = 0 ↔ ∀ i, 0 < i → i < MAX_THREADS →
    lost file i = 0 := by
    rw [lostUpTo, List.sum_eq_zero_iff_forall_eq_nat]
    constructor
    · intro h i hpos hi
      obtain ⟨i, rfl⟩ : ∃ k, i = k + 1 := ⟨i - 1, by omega⟩
      exact h _ (List.mem_map.2 ⟨i, List.mem_range.2 (by omega), rfl⟩)
    · intro h x hx
      rcases List.mem_map.1 hx with ⟨i, hi, rfl⟩
      rw [List.mem_range] at hi
      exact h (i + 1) (Nat.succ_pos i) (by omega)
  rw [hzero]
  constructor
  · intro h i hpos hi
    rcases exists_cut_lt hfile hpos hi with ⟨j, hjpos, hj, hcut, hlt⟩
    have hlost := h j hjpos hj
    rw [lost] at hlost
    rw [← hcut]
    by_contra hstarts
    rw [Bool.not_eq_false] at hstarts
    rw [if_pos ⟨hstarts, hlt⟩] at hlost
    cases hlost
  · intro h i hpos hi
    rw [lost, if_neg]
    simp [h i hpos hi]

/-- The total is the number of words if and only if no word starts at a cut between two segments. -/
theorem total_eq_words_iff (file : List UInt8) (short : Nat → Nat) (hfile : 0 < file.length) :
    main file short = some (words file) ↔
      ∀ i, 0 < i → i < MAX_THREADS → startsWord file (i * chunkSize file) = false := by
  rcases main_add_lost short hfile with ⟨total, htotal, hsum⟩
  have hlost := lostUpTo_eq_zero_iff hfile
  simp only [cut] at hlost
  rw [htotal, Option.some.injEq, ← hlost]
  omega

/-- The cuts of a file of seven bytes are at its bytes 1, 2 and 3. -/
theorem total_of_two_words : main (literal "one two") (fun _ => BUF_SIZE) =
    some (words (literal "one two")) := by
  have hcuts : ∀ i, i < MAX_THREADS → 0 < i →
      startsWord (literal "one two") (i * chunkSize (literal "one two")) = false := by decide
  exact (total_eq_words_iff (literal "one two") (fun _ => BUF_SIZE) (by decide)).2 fun i hpos hi =>
    hcuts i hi hpos

/-- The third word starts at the byte 6, the start of the last segment. -/
theorem word_at_cut_is_lost : main (literal "ab cd ef") (fun _ => BUF_SIZE) = some 2 ∧
    words (literal "ab cd ef") = 3 := by
  decide

end SystemsLab.WordCount
