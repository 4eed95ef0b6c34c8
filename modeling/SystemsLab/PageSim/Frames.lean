import SystemsLab.Data.ExchangeSort
import Mathlib.Algebra.GroupWithZero.Nat
import Mathlib.Data.List.FinRange

/-!
# The frames of the page simulators and the loops that search them

A simulator has `MAX_FRAMES` frames, each with a page number; `-1` marks an empty frame.  The
programs search the frames with three loops:

- `findpage` — the first frame with a page (`return`, or `break`, at the first match);
- `lastFrame` — the same loop without the `break`, which ends with the last match;
- `leastFrame` — the first of the frames with the smallest value.

Page numbers and counters are `int`s that stay far from the bounds of the type: the counters grow by
at most one for a request, and a request has a place in an array.
-/

namespace SystemsLab.PageSim

open List

def MAX_FRAMES : Nat := 3

instance neZeroMaxFrames : NeZero MAX_FRAMES := ⟨by decide⟩

variable {n : Nat}

/-! ## Searching a page -/

/-- `for (j = 0; j < n; j++) if (buffer[j] == page) return j;` with `none` for the `-1` at the end.
-/
def findpage (buffer : Fin n → Int) (page : Int) : Option (Fin n) :=
  (List.finRange n).find? fun j => buffer j == page

/-- `for (j = 0; j < n; j++) if (buffer[j] == page) found = j;` with `none` for `found = -1`. -/
def lastFrame (buffer : Fin n → Int) (page : Int) : Option (Fin n) :=
  (List.finRange n).foldl (fun found j => if buffer j = page then some j else found) none

/-- A search gives a frame with the page, unless there is none. -/
def Searches (find : (Fin n → Int) → Int → Option (Fin n)) : Prop :=
  ∀ buffer page, (∃ j, find buffer page = some j ∧ buffer j = page) ∨
    find buffer page = none ∧ ∀ j, buffer j ≠ page

theorem findpage_searches : Searches (findpage (n := n)) := by
  intro buffer page
  cases hfind : findpage buffer page with
  | some j => exact .inl ⟨j, rfl, by simpa using find?_some hfind⟩
  | none =>
    refine .inr ⟨rfl, fun j => ?_⟩
    simpa using find?_eq_none.1 hfind j (mem_finRange j)

theorem lastFrame_searches : Searches (lastFrame (n := n)) := by
  intro buffer page
  -- what the loop has found among the frames it has passed
  have hloop : ∀ (js : List (Fin n)) (found : Option (Fin n)),
    (∀ j, found = some j → buffer j = page) →
      (∃ j, js.foldl (fun found j => if buffer j = page then some j else found) found = some j ∧
        buffer j = page) ∨
      js.foldl (fun found j => if buffer j = page then some j else found) found = none ∧
        found = none ∧ ∀ j ∈ js, buffer j ≠ page := by
    intro js
    induction js with
    | nil =>
      intro found hfound
      cases found with
      | none => exact .inr ⟨rfl, rfl, by simp⟩
      | some j => exact .inl ⟨j, rfl, hfound j rfl⟩
    | cons j js ih =>
      intro found hfound
      rw [foldl_cons]
      split_ifs with hj
      · rcases ih (some j) (by rintro k ⟨⟩; exact hj) with h | ⟨-, hsome, -⟩
        · exact .inl h
        · cases hsome
      · rcases ih found hfound with h | ⟨hfold, hnone, hrest⟩
        · exact .inl h
        · refine .inr ⟨hfold, hnone, fun k hk => ?_⟩
          rcases mem_cons.1 hk with rfl | hk
          · exact hj
          · exact hrest k hk
  rcases hloop (List.finRange n) none (by simp) with h | ⟨hfold, -, hall⟩
  · exact .inl h
  · exact .inr ⟨hfold, fun j => hall j (mem_finRange j)⟩

/-! ## The least value -/

/-- `lru = 0; for (j = 1; j < n; j++) if (time[j] < time[lru]) lru = j;` -/
def leastFrame [NeZero n] (time : Fin n → Int) : Fin n :=
  (List.finRange n).tail.foldl (fun lru j => if time j < time lru then j else lru) 0

theorem leastFrame_le [NeZero n] (time : Fin n → Int) (j : Fin n) :
    time (leastFrame time) ≤ time j := by
  refine (ExchangeSort.foldl_least time (List.finRange n).tail 0).2 j ?_
  cases n with
  | zero => exact j.elim0
  | succ k =>
    rw [finRange_succ, tail_cons, mem_cons, mem_map]
    rcases Fin.eq_zero_or_eq_succ j with rfl | ⟨i, rfl⟩
    · exact .inl rfl
    · exact .inr ⟨i, mem_finRange i, rfl⟩

/-! ## The pages in the frames -/

def residents (buffer : Fin n → Int) : List Int := (List.ofFn buffer).filter fun page => page ≠ -1

end SystemsLab.PageSim
