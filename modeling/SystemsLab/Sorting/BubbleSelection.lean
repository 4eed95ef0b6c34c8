import SystemsLab.Data.BubbleSort
import SystemsLab.Data.ExchangeSort
import Mathlib.Data.List.FinRange
import Mathlib.Data.List.Sort

/-!
# `bubble_sort.c` and `selection_sort.c`

The inner loop of `bubble_sort.c` starts at `i`, so a pass that does not bring a least value to the
place `i` is not made good by a later one.  `sorts_agree` says for which arrays the loops sort
nevertheless: for every `k`, the `k` least values are among the first `2 * k` elements (`Placed`).
The loops of `selection_sort.c` always sort.
-/

namespace SystemsLab.Sorting

open List BubbleSort ExchangeSort Function

variable {n : Nat}

/-! ## The two programs -/

/-- The inner loop of `bubble_sort.c`, for an array of length `n`. -/
def bubble (n : Nat) (arr : List Int) (i : Nat) : List Int :=
  arr.take i ++ bubblePass id (n - i - 1 - i) (arr.drop i)

def bubbleLoops (arr : List Int) : List Int :=
  (range (arr.length - 1)).foldl (bubble arr.length) arr

/-- The inner loop of `selection_sort.c`. -/
def findMinPos (arr : Fin n → Int) (i : Fin n) : Fin n :=
  ((finRange n).filter (i < ·)).foldl (fun min_pos j => if arr j <
    arr min_pos then j else min_pos) i

def select (arr : Fin n → Int) (i : Fin n) : Fin n → Int :=
  let min_pos := findMinPos arr i
  let temp := arr i
  update (update arr i (arr min_pos)) min_pos temp

def selectionLoops (arr : Fin n → Int) : Fin n → Int := ((finRange n).take (n - 1)).foldl select arr

/-! ## Bubble sort -/

/-- For every `j`, the `j + 1` least values are among the first `2 * (j + 1)` elements: if more than
`j` elements are at most `t`, more than `j` of these elements are. -/
def Placed (arr : List Int) : Prop :=
  ∀ t j, j < arr.countP (· ≤ t) → j < (arr.take (2 * j + 2)).countP (· ≤ t)

variable {r p : Nat} {t first top : Int} {l mid w : List Int}

/-- What the first elements of a pass have below a bound: the pass leaves out a greatest one of
those it has read. -/
theorem countP_bubblePass (hr : r < l.length) (hp : p ≤ r) :
    ((bubblePass id r l).take p).countP (· ≤ t) = min p ((l.take (p + 1)).countP (· ≤ t)) := by
  rcases take_bubblePass id hr hp with ⟨front, top, htake, hperm, htop⟩
  have hlen : front.length = p := by simpa [Nat.min_eq_left (hp.trans_lt hr)] using hperm.length_eq
  rw [htake, ← hperm.countP_eq]
  by_cases hle : top ≤ t
  · have hall : front.countP (· ≤ t) = front.length :=
      countP_eq_length.2 fun x hx => decide_eq_true ((htop x hx).trans hle)
    simp [hall, hlen]
  · have hfront : front.countP (· ≤ t) ≤ p := hlen ▸ countP_le_length
    simp [hle, hfront]

/-- A pass over a window `w` of an array keeps its first and its last element in their places from
then on. -/
theorem placed_iff {rest : List Int} (hpass : bubblePass id (mid.length + 1) (w ++ rest) = first ::
    mid ++ top :: rest)
    (hlen : w.length = mid.length + 2) : Placed w ↔ (∀ x ∈ w, first ≤ x) ∧ Placed mid := by
  have hr : mid.length + 1 < (w ++ rest).length := by
    rw [length_append]
    omega
  have hcount : ∀ t p, p ≤ mid.length + 1 →
      ((first :: mid).take p).countP (· ≤ t) = min p ((w.take (p + 1)).countP (· ≤ t)) := by
    intro t p hp
    have hpart := countP_bubblePass (t := t) hr hp
    rwa [hpass, take_append_of_le_length (by simpa using hp),
      take_append_of_le_length (by omega)] at hpart
  have hall : ∀ t, (first :: mid).countP (· ≤ t) = min (mid.length + 1) (w.countP (· ≤ t)) := by
    intro t
    have hfull := hcount t (mid.length + 1) (le_refl _)
    rwa [take_of_length_le (by simp), take_of_length_le (by omega)] at hfull
  have hfirst : ∀ t, first ≤ t →
    ∀ m : List Int, (first :: m).countP (· ≤ t) = m.countP (· ≤ t) + 1 := fun t ht m =>
    countP_cons_of_pos (by simpa using ht)
  -- one place less among two elements less
  have hnext : ∀ t j, first ≤ t →
    ((j + 1 < w.countP (· ≤ t) → j + 1 < (w.take (2 * (j + 1) + 2)).countP (· ≤ t)) ↔
      (j < mid.countP (· ≤ t) → j < (mid.take (2 * j + 2)).countP (· ≤ t))) := by
    intro t j ht
    by_cases hp : 2 * j + 3 ≤ mid.length + 1
    · have hpart := hcount t (2 * j + 3) hp
      have hfull := hall t
      rw [take_succ_cons, hfirst t ht] at hpart
      rw [hfirst t ht] at hfull
      rw [show 2 * (j + 1) + 2 = 2 * j + 3 + 1 by omega]
      omega
    · rw [take_of_length_le (by omega), take_of_length_le (by omega)]
      exact iff_of_true id id
  constructor
  · intro hplaced
    have hmin : ∀ x ∈ w, first ≤ x := by
      intro x hx
      have htwo : 0 < (w.take (1 + 1)).countP (· ≤ x) :=
        hplaced x 0 (countP_pos_iff.2 ⟨x, hx, by simp⟩)
      by_contra hlt
      have hone := hcount x 1 (by omega)
      rw [take_succ_cons, countP_cons_of_neg (by simpa using hlt), take_zero, countP_nil] at hone
      omega
    refine ⟨hmin, fun t j hj => (hnext t j ?_).1 (hplaced t (j + 1)) hj⟩
    have hpos : 0 < w.countP (· ≤ t) := by
      have hle : mid.countP (· ≤ t) ≤ (first :: mid).countP (· ≤ t) :=
        (sublist_cons_self _ _).countP_le
      have := hall t
      omega
    rcases countP_pos_iff.1 hpos with ⟨y, hy, hle⟩
    exact (hmin y hy).trans (of_decide_eq_true hle)
  · rintro ⟨hmin, hmid⟩ t j hj
    rcases countP_pos_iff.1 (Nat.zero_lt_of_lt hj) with ⟨y, hy, hle⟩
    have ht : first ≤ t := (hmin y hy).trans (of_decide_eq_true hle)
    cases j with
    | succ j => exact (hnext t j ht).2 (hmid t j) hj
    | zero =>
      have hone := hcount t 1 (by omega)
      rw [take_succ_cons, hfirst t ht] at hone
      change 0 < (w.take (1 + 1)).countP (· ≤ t)
      omega

/-- The passes behind the middle make no comparison. -/
theorem foldl_bubble_idle {i : Nat} (hn : n ≤ 2 * i + 1) {is : List Nat} (his : ∀ k ∈ is, i ≤ k)
    (arr : List Int) :
    is.foldl (bubble n) arr = arr := by
  induction is with
  | nil => rfl
  | cons k is ih =>
    have hk := his k mem_cons_self
    rw [foldl_cons, bubble, show n - k - 1 - k = 0 by omega]
    simp only [bubblePass, take_append_drop]
    exact ih fun k hk => his k (mem_cons_of_mem _ hk)

/-- The passes from `i` on, with the window that the next pass goes over. -/
theorem bubble_window {i : Nat} {w before after : List Int} (hb : before.length = i)
    (ha : after.length = i) (hn : w.length + 2 * i = n) :
    ∃ v, (range' i (n - 1 - i)).foldl (bubble n) (before ++ w ++ after) = before ++ v ++
      after ∧ v.Perm w ∧
      (v.Pairwise (· ≤ ·) ↔ Placed w) := by
  induction hw : w.length using Nat.strongRecOn generalizing i w before after with
  | ind m ih =>
  by_cases hshort : m ≤ 1
  · refine ⟨w, foldl_bubble_idle (i := i) (by omega) (fun k hk => (mem_range'_1.1 hk).1) _,
      Perm.refl _,
      iff_of_true ?_ fun t j hj => ?_⟩
    · rcases w with - | ⟨x, - | ⟨y, w⟩⟩
      · exact Pairwise.nil
      · exact pairwise_singleton _ _
      · rw [← hw, length_cons, length_cons] at hshort
        omega
    · rwa [take_of_length_le (by omega)]
  · have hr : m - 1 < (w ++ after).length := by
      rw [length_append]
      omega
    rcases bubblePass_eq id hr with ⟨front, top, hpass, hperm, htop⟩
    rw [Nat.sub_add_cancel (by omega), ← hw, take_left] at hperm
    rw [Nat.sub_add_cancel (by omega), ← hw, drop_left] at hpass
    have hfront := hperm.length_eq
    rw [length_append, length_singleton] at hfront
    rcases front with - | ⟨first, mid⟩
    · rw [length_nil] at hfront
      omega
    rw [length_cons] at hfront
    rcases @ih mid.length (by omega) (i + 1) mid (before ++ [first]) (top :: after) (by simp [hb])
      (by simp [ha])
      (by omega) rfl with ⟨v, hrun, hv, hsorted⟩
    refine ⟨first :: v ++ [top], ?_, ?_, ?_⟩
    · rw [show n - 1 - i = n - 1 - (i + 1) + 1 by omega, range'_succ, foldl_cons, bubble,
        append_assoc, ← hb, take_left,
        drop_left, hb, show n - i - 1 - i = w.length - 1 by omega, hpass]
      simpa using hrun
    · exact ((hv.cons first).append_right [top]).trans hperm
    · rw [placed_iff (by rw [← hpass]; congr 1; omega) (by omega), ← hsorted, cons_append,
        pairwise_cons, pairwise_append]
      have hmem : ∀ x, x ∈ w ↔ x = first ∨ x ∈ v ∨ x = top := by
        intro x
        rw [← hperm.mem_iff, cons_append, mem_cons, mem_append, mem_singleton, hv.mem_iff]
      have hle : ∀ x ∈ v, x ≤ top := fun x hx => htop x (mem_cons_of_mem _ (hv.mem_iff.1 hx))
      simp only [hmem, mem_append, mem_singleton, or_imp, forall_and, forall_eq,
        pairwise_singleton, true_and]
      constructor
      · rintro ⟨h, hs, -⟩
        exact ⟨⟨le_rfl, h⟩, hs⟩
      · rintro ⟨⟨-, h⟩, hs⟩
        exact ⟨h, hs, hle⟩

/-! ## Selection sort -/

variable {arr : Fin n → Int} {i : Fin n}

/-- The positions below `k` have their final values. -/
def SortedTo (arr : Fin n → Int) (k : Nat) : Prop := ∀ p q : Fin n, p < k → p ≤ q → arr p ≤ arr q

theorem select_eq (arr : Fin n → Int) (i : Fin n) :
    select arr i = arr ∘ Equiv.swap i (findMinPos arr i) := by
  funext q
  rw [select, comp_apply, Equiv.swap_apply_def, update_apply, update_apply]
  by_cases hi : q = i
  · by_cases hm : q = findMinPos arr i
    · rw [if_pos hm, if_pos hi, ← hm, hi]
    · rw [if_neg hm, if_pos hi, if_pos hi]
  · rw [if_neg hi, if_neg hi, apply_ite arr]

theorem findMinPos_spec (arr : Fin n → Int) (i : Fin n) :
    i ≤ findMinPos arr i ∧ ∀ q, i ≤ q → arr (findMinPos arr i) ≤ arr q := by
  have hmem : ∀ q, q ∈ i :: (finRange n).filter (i < ·) ↔ i ≤ q := by
    simp [le_iff_eq_or_lt, eq_comm]
  rcases foldl_least arr ((finRange n).filter (i < ·)) i with ⟨hleast, hle⟩
  exact ⟨(hmem _).1 hleast, fun q hq => hle q ((hmem q).2 hq)⟩

theorem select_sortedTo (h : SortedTo arr i) : SortedTo (select arr i) (i + 1) := by
  rcases findMinPos_spec arr i with ⟨hle, hmin⟩
  have hswap : ∀ p q : Fin n, p ≤ i → p ≤ q → p ≤ Equiv.swap i (findMinPos arr i) q := by
    intro p q hp hq
    rw [Equiv.swap_apply_def]
    split_ifs
    · exact hp.trans hle
    · exact hp
    · exact hq
  rw [select_eq]
  intro p q hp hpq
  rcases Nat.lt_succ_iff_lt_or_eq.1 hp with hlt | heq
  · have hp' : p < i := hlt
    rw [comp_apply, Equiv.swap_apply_of_ne_of_ne hp'.ne (hp'.trans_le hle).ne]
    exact h p _ hlt (hswap p q hp'.le hpq)
  · obtain rfl : p = i := Fin.ext heq
    rw [comp_apply, Equiv.swap_apply_left]
    exact hmin _ (hswap p q le_rfl hpq)

theorem selectionLoops_spec (arr : Fin n → Int) :
    (ofFn (selectionLoops arr)).Perm (ofFn arr) ∧ (ofFn (selectionLoops arr)).Pairwise (· ≤ ·) := by
  have hrounds : ∀ k ≤ n, (ofFn (((finRange n).take k).foldl select arr)).Perm (ofFn arr) ∧
      SortedTo (((finRange n).take k).foldl select arr) k := by
    intro k
    induction k with
    | zero => exact fun _ => ⟨Perm.refl _, nofun⟩
    | succ k ih =>
      intro hk
      rcases ih (Nat.le_of_succ_le hk) with ⟨hperm, hsorted⟩
      have hround : (finRange n).take (k + 1) = (finRange n).take k ++ [⟨k, hk⟩] := by
        rw [take_add_one, getElem?_eq_getElem (by simpa using Nat.lt_of_succ_le hk),
          getElem_finRange]
        rfl
      rw [hround, foldl_append, foldl_cons]
      refine ⟨?_, select_sortedTo hsorted⟩
      rw [select_eq]
      exact (Equiv.Perm.ofFn_comp_perm _ _).trans hperm
  rcases hrounds (n - 1) (Nat.sub_le _ _) with ⟨hperm, hsorted⟩
  exact ⟨hperm, pairwise_ofFn.2 fun p q hlt => hsorted p q (by omega) hlt.le⟩

/-- Selection sort always sorts; the loops of `bubble_sort.c` leave the same array exactly if, for
every `j`, the `j + 1` least values are among the first `2 * (j + 1)` elements. -/
theorem sorts_agree (arr : List Int) :
    (ofFn (selectionLoops arr.get)).Perm arr ∧ (ofFn (selectionLoops arr.get)).Pairwise (· ≤ ·) ∧
      (bubbleLoops arr).Perm arr ∧
      (bubbleLoops arr = ofFn (selectionLoops arr.get) ↔ Placed arr) := by
  rcases selectionLoops_spec arr.get with ⟨hperm, hsorted⟩
  rw [ofFn_get] at hperm
  rcases @bubble_window arr.length 0 arr [] [] rfl rfl rfl with ⟨v, hv, hvperm, hplaced⟩
  have hbubble : bubbleLoops arr = v := by simpa [bubbleLoops, range_eq_range'] using hv
  refine ⟨hperm, hsorted, hbubble ▸ hvperm, ?_⟩
  rw [hbubble, ← hplaced]
  constructor
  · rintro rfl
    exact hsorted
  · intro h
    exact (hvperm.trans hperm.symm).eq_of_pairwise' h hsorted

/-- The second pass of bubble sort no longer looks at the first element. -/
theorem bubble_starts_too_late : bubbleLoops [3, 2, 1] = [2, 1, 3] ∧
      ofFn (selectionLoops ([3, 2, 1] : List Int).get) = [1, 2, 3] := by
  decide

end SystemsLab.Sorting
