import Mathlib.Algebra.Order.BigOperators.Group.Finset
import Mathlib.Data.Fintype.BigOperators

/-!
# The files that `read_mlfa_and_merge.c` merges with asynchronous reads

The environment decides, in every pass over the files, which reads have completed and how many bytes
each one got; a read gets at least one byte before the end of its file and none at the end.  Writes
to the output are complete, and no call fails.
-/

namespace SystemsLab.AioMerge

open List Option

def BUF_SIZE : Nat := 8192

/-- `FileTask`, with `cb.aio_offset` of its one control block. -/
structure FileTask where
  offset : Nat
  active : Bool

variable {n : Nat}

/-- `output` are the chunks written to `STDOUT_FILENO` with the files they come from, `finished` the
files that were closed. -/
structure Merge (n : Nat) where
  tasks : Fin n → FileTask
  remaining : Nat
  output : List (Fin n × List UInt8)
  finished : List (Fin n)

def start (n : Nat) : Merge n := ⟨fun _ => ⟨0, true⟩, n, [], []⟩

/-- The part of the buffer that a completed read has filled, if `k + 1` bytes were at hand. -/
def completed (file : List UInt8) (offset k : Nat) : List UInt8 :=
  (file.drop offset).take (min (k + 1) BUF_SIZE)

/-- The body of the `for` loop; `none` stands for `EINPROGRESS`. -/
def visit (files : Fin n → List UInt8) (answers : Fin n → Option Nat) (s : Merge n) (i : Fin n) :
    Merge n :=
  if (s.tasks i).active then
    match answers i with
    | none => s
    | some k =>
      let chunk := completed (files i) (s.tasks i).offset k
      if chunk.length > 0 then
        { s with
          output := s.output ++ [(i, chunk)]
          tasks := Function.update s.tasks i ⟨(s.tasks i).offset + chunk.length, true⟩ }
      else
        { s with
          tasks := Function.update s.tasks i ⟨(s.tasks i).offset, false⟩
          finished := s.finished ++ [i]
          remaining := s.remaining - 1 }
  else s

/-- One pass of the `while` loop; `none` stands for `EINTR` from `aio_suspend`. -/
def pass (files : Fin n → List UInt8) (s : Merge n) : Option (Fin n → Option Nat) → Merge n
  | none => s
  | some answers => (List.finRange n).foldl (visit files answers) s

def loop (files : Fin n → List UInt8) (s : Merge n) : List (Option (Fin n → Option Nat)) → Merge n
  | [] => s
  | r :: rs => if s.remaining > 0 then loop files (pass files s r) rs else s

/-- `aio_suspend` returns only when a read has completed or it was interrupted. -/
def Woken (files : Fin n → List UInt8) (s : Merge n) : List (Option (Fin n → Option Nat)) → Prop
  | [] => True
  | r :: rs => s.remaining > 0 →
    (∀ answers ∈ r, ∃ i, (s.tasks i).active ∧ answers i ≠ none) ∧ Woken files (pass files s r) rs

def written (output : List (Fin n × List UInt8)) (i : Fin n) : List UInt8 :=
  (output.filter fun c => c.1 = i).flatMap Prod.snd

variable {files : Fin n → List UInt8} {answers : Fin n → Option Nat} {s : Merge n} {i : Fin n}

/-- What was read of file `i` was written, and it is finished at its end only. -/
structure Tracks (files : Fin n → List UInt8) (s : Merge n) (i : Fin n) : Prop where
  written : written s.output i = (files i).take (s.tasks i).offset
  ended : (s.tasks i).active = false → (files i).length ≤ (s.tasks i).offset
  finished : i ∈ s.finished ↔ (s.tasks i).active = false

structure Inv (files : Fin n → List UInt8) (s : Merge n) : Prop where
  tracks : ∀ i, Tracks files s i
  nodup : s.finished.Nodup
  count : s.remaining + s.finished.length = n

theorem start_inv : Inv files (start n) :=
  ⟨fun i => ⟨by simp [start, written], nofun, by simp [start]⟩, nodup_nil, rfl⟩

theorem completed_eq_nil {file : List UInt8} {offset k : Nat}
    (h : ¬(completed file offset k).length > 0) :
    file.length ≤ offset := by
  simp [completed, BUF_SIZE] at h
  omega

theorem take_completed (file : List UInt8) (offset k : Nat) :
    file.take (offset + (completed file offset k).length) = file.take offset ++
      completed file offset k := by
  rw [take_add]
  simp [completed]

theorem written_concat (output : List (Fin n × List UInt8)) (i j : Fin n) (chunk : List UInt8) :
    written (output ++ [(i, chunk)]) j = written output j ++ if j = i then chunk else [] := by
  by_cases hj : j = i
  · simp [written, hj]
  · simp [written, hj, Ne.symm hj]

/-- No file is finished twice, so that the counter is positive when one is. -/
theorem Inv.length_lt (h : Inv files s) (hi : i ∉ s.finished) : s.finished.length < n := by
  simpa [Nat.succ_le_iff] using (nodup_cons.2 ⟨hi, h.nodup⟩).length_le_card

theorem Inv.visit (h : Inv files s) (i : Fin n) : Inv files (visit files answers s i) := by
  unfold AioMerge.visit
  split_ifs with hactive
  · split
    · exact h
    · dsimp only
      split_ifs with hchunk
      · refine ⟨fun j => ?_, h.nodup, h.count⟩
        rcases h.tracks j with ⟨hwritten, hended, hfinished⟩
        rcases eq_or_ne j i with rfl | hj
        · exact ⟨by simp [written_concat, hwritten, take_completed], by simp,
            by simp [hfinished, hactive]⟩
        · exact ⟨by simpa [written_concat, hj] using hwritten, by simpa [hj] using hended,
            by simpa [hj] using hfinished⟩
      · have hi : i ∉ s.finished := by simp [(h.tracks i).finished, hactive]
        have hlt := h.length_lt hi
        have hcount := h.count
        refine ⟨fun j => ?_, ?_, by simp; omega⟩
        · rcases h.tracks j with ⟨hwritten, hended, hfinished⟩
          rcases eq_or_ne j i with rfl | hj
          · exact ⟨by simpa using hwritten,
              fun _ => by simpa using completed_eq_nil hchunk, by simp⟩
          · exact ⟨by simpa [hj] using hwritten, by simpa [hj] using hended, by simpa [hj]
              using hfinished⟩
        · simpa [nodup_append] using ⟨h.nodup, fun j hj heq => hi (heq ▸ hj)⟩
  · exact h

theorem Inv.loop (h : Inv files s) (rs : List (Option (Fin n → Option Nat))) :
    Inv files (loop files s rs) := by
  induction rs generalizing s with
  | nil => exact h
  | cons r rs ih =>
    rw [AioMerge.loop]
    split
    · cases r with
      | none => exact ih h
      | some answers => exact ih (foldlRecOn _ _ h fun _ hs i _ => hs.visit i)
    · exact h

/-! ## The end of the loop -/

def work (files : Fin n → List UInt8) (s : Merge n) (i : Fin n) : Nat :=
  (files i).length - (s.tasks i).offset + if (s.tasks i).active then 1 else 0

theorem visit_tasks_of_ne {j : Fin n} (hj : j ≠ i) :
    (visit files answers s i).tasks j = s.tasks j := by
  unfold visit
  split
  · split
    · rfl
    · dsimp only
      split <;> simp [hj]
  · rfl

theorem visit_work (files : Fin n → List UInt8) (answers : Fin n → Option Nat)
    (s : Merge n) (i : Fin n) :
    work files (visit files answers s i) i ≤ work files s i ∧
      ((s.tasks i).active → answers i ≠ none →
        work files (visit files answers s i) i < work files s i) := by
  unfold visit
  split_ifs with hactive
  · split
    · rename_i hk
      exact ⟨le_refl _, fun _ hne => absurd hk hne⟩
    · rename_i k hk
      have hle : (completed (files i) (s.tasks i).offset k).length ≤
        (files i).length - (s.tasks i).offset := by
        simp [completed]
      dsimp only
      split
      · simp [work, hactive]
        omega
      · simp [work, hactive]
  · exact ⟨le_refl _, fun h => absurd h hactive⟩

theorem visit_work_le (j : Fin n) : work files (visit files answers s i) j ≤ work files s j := by
  by_cases hj : j = i
  · subst hj
    exact (visit_work files answers s j).1
  · rw [work, visit_tasks_of_ne hj, work]

theorem foldl_visit_work_le (l : List (Fin n)) (j : Fin n) :
    work files (l.foldl (visit files answers) s) j ≤ work files s j := by
  induction l generalizing s with
  | nil => exact le_refl _
  | cons i l ih => exact le_trans ih (visit_work_le j)

theorem foldl_visit_work_lt {l : List (Fin n)} (hi : i ∈ l) (hactive : (s.tasks i).active)
    (hanswer : answers i ≠ none) :
    work files (l.foldl (visit files answers) s) i < work files s i := by
  induction l generalizing s with
  | nil => cases hi
  | cons j l ih =>
    rcases eq_or_ne i j with rfl | hj
    · exact lt_of_le_of_lt (foldl_visit_work_le l i)
        ((visit_work files answers s i).2 hactive hanswer)
    · have hl := ih (s := visit files answers s j) ((mem_cons.1 hi).resolve_left hj)
        (by rwa [visit_tasks_of_ne hj])
      exact lt_of_lt_of_le hl (visit_work_le i)

theorem loop_work (rs : List (Option (Fin n → Option Nat))) (hwoken : Woken files s rs) :
    (loop files s rs).remaining = 0 ∨
      ∑ i, work files (loop files s rs) i + rs.countP isSome ≤ ∑ i, work files s i := by
  induction rs generalizing s with
  | nil => exact .inr (le_refl _)
  | cons r rs ih =>
    by_cases hpos : s.remaining > 0
    · rw [loop, if_pos hpos]
      rcases hwoken hpos with ⟨hwakes, hrest⟩
      cases r with
      | none => simpa [pass] using ih hrest
      | some answers =>
        rcases hwakes answers rfl with ⟨i, hactive, hanswer⟩
        have hless : ∑ i, work files (pass files s (some answers)) i < ∑ i, work files s i :=
          Finset.sum_lt_sum (fun j _ => foldl_visit_work_le _ j)
            ⟨i, Finset.mem_univ i, foldl_visit_work_lt (mem_finRange i) hactive hanswer⟩
        refine (ih hrest).imp_right fun hle => ?_
        simp only [countP_cons, isSome_some, if_true]
        omega
    · rw [loop, if_neg hpos]
      exact .inl (Nat.eq_zero_of_not_pos hpos)

/-- At all times the chunks of a file are the beginning of it that was read, and when the loop ends
they are the file, and each file was finished once.  The loop ends, at the latest after as many
uninterrupted passes as there are bytes and files. -/
theorem merge_preserves_files (files : Fin n → List UInt8)
    (rs : List (Option (Fin n → Option Nat))) :
    (∀ i, written (loop files (start n) rs).output i =
      (files i).take ((loop files (start n) rs).tasks i).offset) ∧
      ((loop files (start n) rs).remaining = 0 →
        (∀ i, written (loop files (start n) rs).output i = files i) ∧
        (loop files (start n) rs).finished.Nodup ∧ ∀ i, i ∈ (loop files (start n) rs).finished) ∧
      (Woken files (start n) rs → ∑ i, ((files i).length + 1) < rs.countP isSome →
        (loop files (start n) rs).remaining = 0) := by
  have hinv : Inv files (loop files (start n) rs) := start_inv.loop rs
  refine ⟨fun i => (hinv.tracks i).written, fun hend => ?_, fun hwoken hlong => ?_⟩
  · have hall : ∀ i, i ∈ (loop files (start n) rs).finished := by
      intro i
      by_contra hi
      have hlt := hinv.length_lt hi
      have hcount := hinv.count
      omega
    refine ⟨fun i => ?_, hinv.nodup, hall⟩
    rcases hinv.tracks i with ⟨hwritten, hended, hfinished⟩
    rw [hwritten, take_of_length_le (hended (hfinished.1 (hall i)))]
  · refine (loop_work rs hwoken).resolve_right fun hle => ?_
    have hstart : ∑ i, work files (start n) i = ∑ i, ((files i).length + 1) := by simp [work, start]
    omega

def demoFiles (i : Fin 2) : List UInt8 := if i = 0 then [1, 2, 3] else [9]

def demoPasses : List (Option (Fin 2 → Option Nat)) :=
  [some fun i => if i = 0 then some 1 else none, none] ++ List.replicate 6 (some fun _ => some 5)

theorem merge_preserves_demo : (loop demoFiles (start 2) demoPasses).output =
    [(0, [1, 2]), (0, [3]), (1, [9])] ∧
      ∀ i, written (loop demoFiles (start 2) demoPasses).output i = demoFiles i := by
  have hwoken : Woken demoFiles (start 2) demoPasses := by
    simp only [demoPasses, replicate, cons_append, nil_append, Woken, mem_def, some.injEq,
      forall_eq', reduceCtorEq, false_implies, implies_true, and_true]
    decide
  have hmerge := merge_preserves_files demoFiles demoPasses
  exact ⟨by decide, (hmerge.2.1 (hmerge.2.2 hwoken (by decide))).1⟩

end SystemsLab.AioMerge
