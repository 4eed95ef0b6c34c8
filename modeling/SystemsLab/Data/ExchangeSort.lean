import Mathlib.Data.List.Basic
import Mathlib.Order.Lattice

/-!
# The two nested loops of exchange sort

```
for (i = 0; i < n; i++)
  for (j = i + 1; j < n; j++)
    if (a[j] < a[i]) swap(a[i], a[j]);
```

`exchangePass` is the inner loop on `a[i]` and the elements after it, `exchangeLoop` the outer one.
The result is a sorted permutation, and strictly sorted when the input has no duplicate.
-/

namespace SystemsLab.ExchangeSort

open List

variable {α : Type*} [LinearOrder α]

/-! ## The loops -/

def exchangePass (x : α) : List α → α × List α
  | [] => (x, [])
  | y :: ys =>
    if y < x then
      ((exchangePass y ys).1, x :: (exchangePass y ys).2)
    else
      ((exchangePass x ys).1, y :: (exchangePass x ys).2)

def exchangeLoop : Nat → List α → List α
  | 0, l => l
  | _ + 1, [] => []
  | n + 1, x :: xs => (exchangePass x xs).1 :: exchangeLoop n (exchangePass x xs).2

def exchangeSort (l : List α) : List α :=
  exchangeLoop l.length l

/-! ## One round -/

theorem exchangePass_perm (x : α) (l : List α) :
    ((exchangePass x l).1 :: (exchangePass x l).2).Perm (x :: l) := by
  induction l generalizing x with
  | nil => exact .refl _
  | cons y ys ih =>
    by_cases h : y < x
    · have hround := (ih y).cons x
      simp only [exchangePass, h]
      exact (Perm.swap _ _ _).trans hround
    · have hround := (ih x).cons y
      simp only [exchangePass, h]
      exact ((Perm.swap _ _ _).trans hround).trans (Perm.swap _ _ _)

theorem exchangePass_le (x : α) (l : List α) : ∀ z ∈ x :: l, (exchangePass x l).1 ≤ z := by
  induction l generalizing x with
  | nil =>
    intro z hz
    exact (mem_singleton.1 hz).ge
  | cons y ys ih =>
    intro z hz
    by_cases h : y < x
    · simp only [exchangePass, h]
      rcases mem_cons.1 hz with rfl | hz
      · exact (ih y y (by simp)).trans h.le
      · exact ih y z hz
    · simp only [exchangePass, h]
      have hx : (exchangePass x ys).1 ≤ x := ih x x (by simp)
      rcases mem_cons.1 hz with rfl | hz
      · exact hx
      · rcases mem_cons.1 hz with rfl | hz
        · exact hx.trans (not_lt.1 h)
        · exact ih x z (by simp [hz])

theorem exchangePass_length (x : α) (l : List α) : (exchangePass x l).2.length = l.length := by
  have := (exchangePass_perm x l).length_eq
  simpa using this

/-! ## All rounds -/

theorem exchangeLoop_perm (n : Nat) (l : List α) : (exchangeLoop n l).Perm l := by
  induction n generalizing l with
  | zero => exact .refl _
  | succ n ih =>
    cases l with
    | nil => exact .refl _
    | cons x xs => exact ((ih _).cons _).trans (exchangePass_perm x xs)

theorem exchangeLoop_sorted (n : Nat) (l : List α) (hn : l.length ≤ n) :
    (exchangeLoop n l).Pairwise (· ≤ ·) := by
  induction n generalizing l with
  | zero =>
    have : l = [] := length_eq_zero_iff.1 (Nat.le_zero.1 hn)
    subst this
    exact Pairwise.nil
  | succ n ih =>
    cases l with
    | nil => exact Pairwise.nil
    | cons x xs =>
      have hlen : (exchangePass x xs).2.length ≤ n := by
        rw [exchangePass_length]
        exact Nat.le_of_succ_le_succ hn
      refine pairwise_cons.2 ⟨?_, ih _ hlen⟩
      intro z hz
      -- the later rounds only permute what the first round has left behind
      have hz' : z ∈ (exchangePass x xs).2 := (exchangeLoop_perm n _).mem_iff.1 hz
      exact exchangePass_le x xs z ((exchangePass_perm x xs).mem_iff.1 (by simp [hz']))

theorem exchangeSort_perm (l : List α) : (exchangeSort l).Perm l := exchangeLoop_perm l.length l

theorem mem_exchangeSort {l : List α} {x : α} : x ∈ exchangeSort l ↔ x ∈ l :=
  (exchangeSort_perm l).mem_iff

theorem exchangeSort_strict {l : List α} (h : l.Nodup) : (exchangeSort l).Pairwise (· < ·) := by
  have hsorted : (exchangeSort l).Pairwise (· ≤ ·) := exchangeLoop_sorted l.length l (le_refl _)
  have hnodup : (exchangeSort l).Nodup := (exchangeSort_perm l).nodup_iff.2 h
  exact hsorted.imp₂ (fun _ _ hle hne => lt_of_le_of_ne hle hne) hnodup

/-! ## The least element -/

/-- The loop that looks for the position of a least element. -/
theorem foldl_least {ι : Type*} (key : ι → α) (js : List ι) (m : ι) :
    js.foldl (fun m j => if key j < key m then j else m) m ∈ m :: js ∧
      ∀ j ∈ m :: js, key (js.foldl (fun m j => if key j < key m then j else m) m) ≤ key j := by
  induction js generalizing m with
  | nil => simp
  | cons j js ih =>
    rw [foldl_cons]
    split_ifs with hlt
    · rcases ih j with ⟨hmem, hle⟩
      exact ⟨mem_cons_of_mem m hmem, forall_mem_cons.2 ⟨(hle j mem_cons_self).trans hlt.le, hle⟩⟩
    · rcases ih m with ⟨hmem, hle⟩
      rw [forall_mem_cons] at hle
      refine ⟨?_, forall_mem_cons.2 ⟨hle.1, forall_mem_cons.2 ⟨hle.1.trans (not_lt.1 hlt), hle.2⟩⟩⟩
      exact (cons_subset_cons m (subset_cons_self j js)) hmem

end SystemsLab.ExchangeSort
