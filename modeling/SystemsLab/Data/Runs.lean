import Mathlib.Data.List.Basic

/-!
# Counting the maximal runs of a list

A list is cut into runs by its delimiters, the elements with `d`.  `runs` is their number, and
`starts` counts them by their first elements, with a flag that says whether the element before the
list belongs to a run.  Counting by first elements can be done piece by piece (`starts_append`).
-/

namespace SystemsLab.Runs

variable {α : Type*} (d : α → Bool)

/-- The number of maximal runs of elements that are not delimiters. -/
def runs (l : List α) : Nat := ((l.splitOnP d).filter fun run => !run.isEmpty).length

/-- The number of runs that start in the list; `inRun` says whether one goes on from before it. -/
def starts : Bool → List α → Nat
  | _, [] => 0
  | inRun, x :: l => if d x then starts false l else (if inRun then 0 else 1) + starts true l

def endsIn (inRun : Bool) (l : List α) : Bool := l.foldl (fun _ x => !d x) inRun

def headInRun : List α → Bool
  | [] => false
  | x :: _ => !d x

variable {d}

theorem starts_append (inRun : Bool) (l1 l2 : List α) :
    starts d inRun (l1 ++ l2) = starts d inRun l1 + starts d (endsIn d inRun l1) l2 := by
  induction l1 generalizing inRun with
  | nil => simp [starts, endsIn]
  | cons x l1 ih =>
    rw [List.cons_append, starts, starts]
    by_cases hx : d x
    · rw [if_pos hx, if_pos hx, ih]
      simp [endsIn, hx]
    · rw [if_neg hx, if_neg hx, ih]
      simp [endsIn, hx, Nat.add_assoc]

/-- A run that starts with the list is the one that may go on from before it. -/
theorem starts_false (l : List α) :
    starts d false l = starts d true l + if headInRun d l then 1 else 0 := by
  cases l with
  | nil => rfl
  | cons x l =>
    by_cases hx : d x
    · simp [starts, headInRun, hx]
    · simp [starts, headInRun, hx, Nat.add_comm]

theorem starts_dropWhile (l : List α) : starts d false (l.dropWhile fun x => !d x) =
    starts d true l := by
  induction l with
  | nil => rfl
  | cons x l ih =>
    by_cases hx : d x
    · simp [starts, hx]
    · simp [starts, hx, ih]

theorem splitOnP_starts (l : List α) : ∃ head rest, l.splitOnP d = head :: rest ∧
    (!head.isEmpty) = headInRun d l ∧
    (rest.filter fun run => !run.isEmpty).length = starts d true l := by
  induction l with
  | nil => exact ⟨[], [], rfl, rfl, rfl⟩
  | cons x l ih =>
    rcases ih with ⟨head, rest, hsplit, hhead, hrest⟩
    rw [List.splitOnP_cons_eq_if_modifyHead, hsplit]
    by_cases hx : d x
    · refine ⟨[], head :: rest, by simp [hx], by simp [headInRun, hx], ?_⟩
      rw [starts, if_pos hx, starts_false, ← hrest, ← hhead]
      by_cases hempty : head.isEmpty
      · simp [hempty]
      · simp [hempty]
    · refine ⟨x :: head, rest, by simp [hx], by simp [headInRun, hx], ?_⟩
      simp [starts, hx, hrest]

theorem runs_eq_starts (l : List α) : runs d l = starts d false l := by
  rcases splitOnP_starts (d := d) l with ⟨head, rest, hsplit, hhead, hrest⟩
  rw [runs, hsplit, starts_false, ← hrest, ← hhead]
  by_cases hempty : head.isEmpty
  · simp [hempty]
  · simp [hempty]

end SystemsLab.Runs
