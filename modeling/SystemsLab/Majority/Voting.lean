import Mathlib.Data.List.Induction
import Mathlib.Tactic.Positivity
import Mathlib.Tactic.Ring

/-!
# The majority element, and the repeated and the missing number

`majority_elem_moore_vot.c` finds a candidate with one counter and then counts it;
`majority_elem_brute_force.c` counts every element.  After the votes every value `x` has `2 * count
x ≤ length + freq` if it is the candidate and `2 * count x ≤ length - freq` if it is not (`Votes`),
so only the candidate can have a majority.

In `repeat_missing.c` the sum and the sum of the squares of the array, less those of `1..n`, are `R
- M` and `R² - M²`. The product `n * (n + 1) * (2 * n + 1)` is computed before its division by 6, so
it leaves `long long` before the sums do.
-/

namespace SystemsLab.Majority

open List

/-- A round of the first loop of `mojorityElem`. -/
def vote (freq ans x : Int) : Int × Int :=
  let ans := if freq = 0 then x else ans
  (if ans = x then freq + 1 else freq - 1, ans)

def occurrences (arr : List Int) (x : Int) : Nat :=
  arr.foldl (fun count y => if x = y then count + 1 else count) 0

def mojorityElem (arr : List Int) : Int :=
  let ans := (arr.foldl (fun s x => vote s.1 s.2 x) (0, 0)).2
  if occurrences arr ans > arr.length / 2 then ans else -1

/-- The outer loop of `findMajority`, with the elements that it has not reached. -/
def findMajorityFrom (arr : List Int) : List Int → Int
  | [] => -1
  | x :: rest => if occurrences arr x > arr.length / 2 then x else findMajorityFrom arr rest

def findMajority (arr : List Int) : Int := findMajorityFrom arr arr

theorem occurrences_eq_count (arr : List Int) (x : Int) : occurrences arr x = arr.count x := by
  induction arr using reverseRecOn with
  | nil => rfl
  | append_singleton arr y ih =>
    rw [occurrences, count_append, ← ih]
    simp only [occurrences]
    grind

/-- What the first loop knows after the elements `arr`. -/
def Votes (arr : List Int) (s : Int × Int) : Prop :=
  0 ≤ s.1 ∧ ∀ x, 2 * (arr.count x : Int) ≤ arr.length + if x = s.2 then s.1 else -s.1

theorem votes (arr : List Int) : Votes arr (arr.foldl (fun s x => vote s.1 s.2 x) (0, 0)) := by
  induction arr using reverseRecOn with
  | nil => exact ⟨le_refl 0, fun x => by rw [foldl_nil]; split <;> exact le_refl 0⟩
  | append_singleton arr y ih =>
    rcases ih with ⟨hfreq, hcount⟩
    refine ⟨by grind [vote], fun x => ?_⟩
    grind [vote]

theorem eq_ans_of_majority {arr : List Int} {x : Int} (h : arr.count x > arr.length / 2) :
    x = (arr.foldl (fun s x => vote s.1 s.2 x) (0, 0)).2 := by
  rcases votes arr with ⟨hfreq, hcount⟩
  have hx := hcount x
  split_ifs at hx with heq
  · exact heq
  · omega

/-- `count > n / 2` for at most one value, so the search may stop at the first one. -/
theorem findMajorityFrom_eq {arr : List Int} {x : Int} (h : arr.count x > arr.length / 2)
    {rest : List Int} (hmem : x ∈ rest) : findMajorityFrom arr rest = x := by
  induction rest with
  | nil => cases hmem
  | cons y rest ih =>
    rw [findMajorityFrom, occurrences_eq_count]
    split_ifs with hy
    · exact (eq_ans_of_majority hy).trans (eq_ans_of_majority h).symm
    · rcases mem_cons.1 hmem with rfl | hmem
      · exact absurd h hy
      · exact ih hmem

theorem findMajorityFrom_none {arr : List Int} (h : ∀ x, ¬arr.count x > arr.length / 2)
    (rest : List Int) :
    findMajorityFrom arr rest = -1 := by
  induction rest with
  | nil => rfl
  | cons y rest ih => rw [findMajorityFrom, occurrences_eq_count, if_neg (h y), ih]

/-- Both return the element with more than `n / 2` occurrences, and `-1` if there is none. -/
theorem voting_eq_counting (arr : List Int) : mojorityElem arr = findMajority arr ∧
      (∀ x, arr.count x > arr.length / 2 → findMajority arr = x) ∧
      ((∀ x, ¬arr.count x > arr.length / 2) → findMajority arr = -1) := by
  have hfound : ∀ x, arr.count x > arr.length / 2 → findMajority arr = x := fun x hx =>
    findMajorityFrom_eq hx (count_pos_iff.1 (Nat.zero_lt_of_lt hx))
  refine ⟨?_, hfound, fun h => findMajorityFrom_none h arr⟩
  rw [mojorityElem, occurrences_eq_count]
  split_ifs with hans
  · exact (hfound _ hans).symm
  · refine (findMajorityFrom_none (fun x hx => hans ?_) arr).symm
    rwa [← eq_ans_of_majority hx]

/-! ## The repeated and the missing number -/

/-- `long long` as 64-bit two's complement. -/
def wrap64 (x : Int) : Int := x.bmod (2 ^ 64)

/-- What `repeatMissing` prints; none if `2 * n + 1` is not an `int`, or for a quotient that does
not exist or does not fit.  A product of two values of type `int` fits. -/
def repeatMissing (arr : List Int) (n : Int) : Option (Int × Int) :=
  if 2 * n + 1 > 2147483647 then none
  else
    let S := (n * (n + 1)).tdiv 2
    let P := (wrap64 (n * (n + 1) * (2 * n + 1))).tdiv 6
    let sumArr := arr.foldl (fun sum x => wrap64 (sum + x)) 0
    let sumSqrArr := arr.foldl (fun sum x => wrap64 (sum + x * x)) 0
    let val1 := wrap64 (sumArr - S)
    let val2 := wrap64 (sumSqrArr - P)
    if val1 = 0 ∨ (val2 = -2 ^ 63 ∧ val1 = -1) then none
    else
      let val3 := val2.tdiv val1
      let R := (wrap64 (val1 + val3)).tdiv 2
      some (R, wrap64 (R - val1))

def upTo (n : Nat) : List Int := (range n).map fun i : Nat => (i : Int) + 1

/-- The array has `1..n`, but for `R` a second time and without `M`. -/
structure RepeatsAndMisses (arr : List Int) (n : Nat) (R M : Int) : Prop where
  repeated : R ∈ upTo n
  missing : M ∈ upTo n
  ne : R ≠ M
  perm : (M :: arr).Perm (R :: upTo n)

variable {x : Int} {n : Nat} {arr : List Int} {R M : Int}

/-- A number and its wrapped value differ by a multiple of 2⁶⁴. -/
theorem wrap64_spec (x : Int) :
    ∃ k, x = wrap64 x + 2 ^ 64 * k ∧ -2 ^ 63 ≤ wrap64 x ∧ wrap64 x < 2 ^ 63 := by
  have hlow : -2 ^ 63 ≤ wrap64 x := Int.le_bmod (by decide)
  have hhigh : wrap64 x < 2 ^ 63 := Int.bmod_lt (by decide)
  obtain ⟨k, hk⟩ : 2 ^ 64 ∣ x - wrap64 x := Int.dvd_self_sub_bmod
  exact ⟨k, by omega, hlow, hhigh⟩

theorem wrap64_eq (hlow : -2 ^ 63 ≤ x) (hhigh : x < 2 ^ 63) : wrap64 x = x :=
  Int.bmod_eq_of_le (by simpa using hlow) (by simpa using hhigh)

theorem foldl_wrap64 (f : Int → Int) (arr : List Int) :
    arr.foldl (fun sum x => wrap64 (sum + f x)) 0 = wrap64 (arr.map f).sum := by
  induction arr using reverseRecOn with
  | nil => rfl
  | append_singleton arr x ih =>
    rw [foldl_append, ih, map_append]
    simp [wrap64]

theorem sum_upTo (n : Nat) : 2 * (upTo n).sum = n * (n + 1) := by
  induction n with
  | zero => rfl
  | succ n ih =>
    rw [upTo, range_succ, map_append, sum_append, mul_add, ← upTo, ih, map_singleton, sum_singleton]
    push_cast
    ring

/-- The sum of the squares of `1..n`. -/
def sumSq (n : Nat) : Int := ((upTo n).map fun x => x * x).sum

theorem six_mul_sumSq (n : Nat) : 6 * sumSq n = n * (n + 1) * (2 * n + 1) := by
  induction n with
  | zero => rfl
  | succ n ih =>
    rw [sumSq, upTo, range_succ, map_append, map_append, sum_append, mul_add, ← upTo, ← sumSq, ih,
      map_singleton,
      map_singleton, sum_singleton]
    push_cast
    ring

theorem mem_upTo : x ∈ upTo n ↔ 1 ≤ x ∧ x ≤ n := by
  simp only [upTo, mem_map, mem_range]
  exact ⟨fun ⟨i, hi, hx⟩ => by omega, fun h => ⟨(x - 1).toNat, by omega, by omega⟩⟩

theorem RepeatsAndMisses.sums (h : RepeatsAndMisses arr n R M) (f : Int → Int) :
    (arr.map f).sum = ((upTo n).map f).sum + f R - f M := by
  have hsum := (h.perm.map f).sum_eq
  simp only [map_cons, sum_cons] at hsum
  omega

/-- What is printed depends on the array only by `R` and `M`. -/
theorem repeatMissing_eq (h : RepeatsAndMisses arr n R M) (hint : 2 * (n : Int) + 1 ≤ 2147483647) :
    repeatMissing arr n =
      let val2 := wrap64 (sumSq n - (wrap64 (6 * sumSq n)).tdiv 6 + (R - M) * (R + M))
      if val2 = -2 ^ 63 ∧ R - M = -1 then none
      else
        let r := (wrap64 (R - M + val2.tdiv (R - M))).tdiv 2
        some (r, wrap64 (r - (R - M))) := by
  have hR := mem_upTo.1 h.repeated
  have hM := mem_upTo.1 h.missing
  have hne : R - M ≠ 0 := sub_ne_zero.2 h.ne
  have hS : ((n : Int) * (n + 1)).tdiv 2 = (upTo n).sum := by
    rw [← sum_upTo, Int.mul_tdiv_cancel_left _ (by decide)]
  have hval1 : wrap64 (arr.foldl (fun sum x => wrap64 (sum + x)) 0 - ((n : Int) * (n + 1)).tdiv 2) =
      R - M := by
    have hsum := h.sums id
    rw [foldl_wrap64 fun x => x, hS, wrap64, wrap64, Int.bmod_sub_bmod]
    simp only [map_id, id] at hsum
    rw [map_id', hsum, show (upTo n).sum + R - M - (upTo n).sum = R - M by omega]
    exact wrap64_eq (by omega) (by omega)
  have hval2 : wrap64
    (arr.foldl (fun sum x => wrap64 (sum + x * x)) 0 - (wrap64 (6 * sumSq n)).tdiv 6) =
      wrap64 (sumSq n - (wrap64 (6 * sumSq n)).tdiv 6 + (R - M) * (R + M)) := by
    rw [foldl_wrap64 fun x => x * x, h.sums, ← sumSq, wrap64, wrap64, Int.bmod_sub_bmod]
    congr 1
    ring
  rw [repeatMissing, if_neg (by omega)]
  simp only [hval1, ← six_mul_sumSq, hval2, hne, false_or]

variable {d Q e t : Int}

theorem natAbs_sub_mul_tdiv_lt (x : Int) (hd : d ≠ 0) : (x - d * x.tdiv d).natAbs < d.natAbs := by
  have hdiv := Int.mul_tdiv_add_tmod x d
  have hrem := Int.natAbs_tmod x d
  have hlt := Nat.mod_lt x.natAbs (Int.natAbs_pos.2 hd)
  omega

/-- If the sum of the squares is nearly right modulo 2⁶⁴, the product lost multiples of `6 * 2⁶⁴`
only. -/
theorem dvd_of_small_error (he : Q - (wrap64 (6 * Q)).tdiv 6 = e + 2 ^ 64 * t)
    (hsmall : e.natAbs < 2 ^ 31) :
    6 * 2 ^ 64 ∣ 6 * Q - wrap64 (6 * Q) := by
  obtain ⟨k, hk, -, -⟩ := wrap64_spec (6 * Q)
  have hrem := natAbs_sub_mul_tdiv_lt (wrap64 (6 * Q)) (show (6 : Int) ≠ 0 by decide)
  refine ⟨t, ?_⟩
  omega

theorem error_of_dvd (h : 6 * 2 ^ 64 ∣ 6 * Q - wrap64 (6 * Q)) :
    ∃ t, Q - (wrap64 (6 * Q)).tdiv 6 = 2 ^ 64 * t := by
  obtain ⟨t, ht⟩ := h
  have hexact : wrap64 (6 * Q) = 6 * (Q - 2 ^ 64 * t) := by omega
  refine ⟨t, ?_⟩
  rw [hexact, Int.mul_tdiv_cancel_left _ (by decide)]
  omega

theorem dvd_iff_bmod (x : Int) : 6 * 2 ^ 64 ∣ x - wrap64 x ↔
    -2 ^ 63 ≤ x.bmod (6 * 2 ^ 64) ∧ x.bmod (6 * 2 ^ 64) < 2 ^ 63 := by
  obtain ⟨k, hk, hlow, hhigh⟩ := wrap64_spec x
  obtain ⟨m, hm⟩ : 6 * 2 ^ 64 ∣ x - x.bmod (6 * 2 ^ 64) := Int.dvd_self_sub_bmod
  have hlow' : -(3 * 2 ^ 64) ≤ x.bmod (6 * 2 ^ 64) := Int.le_bmod (by decide)
  have hhigh' : x.bmod (6 * 2 ^ 64) < 3 * 2 ^ 64 := Int.bmod_lt (by decide)
  constructor
  · omega
  · intro h
    exact ⟨m, by omega⟩

/-- The sum of the squares may be wrong by a multiple of 2⁶⁴, and by nothing else. -/
theorem prints_iff_dvd (h : RepeatsAndMisses arr n R M) (hint : 2 * (n : Int) + 1 ≤ 2147483647) :
    repeatMissing arr n = some (R, M) ↔ 6 * 2 ^ 64 ∣ 6 * sumSq n - wrap64 (6 * sumSq n) := by
  have hR := mem_upTo.1 h.repeated
  have hM := mem_upTo.1 h.missing
  have hne : R - M ≠ 0 := sub_ne_zero.2 h.ne
  have hsquares : |(R - M) * (R + M)| ≤ 1073741824 * 2147483648 := by
    rw [abs_mul]
    exact mul_le_mul (abs_le.2 ⟨by omega, by omega⟩) (abs_le.2 ⟨by omega, by omega⟩) (abs_nonneg _)
      (by decide)
  have hle := abs_le.1 hsquares
  rw [repeatMissing_eq h hint]
  constructor
  · intro hprint
    obtain ⟨t, hval2, hlow, hhigh⟩ :=
      wrap64_spec (sumSq n - (wrap64 (6 * sumSq n)).tdiv 6 + (R - M) * (R + M))
    have hrem := natAbs_sub_mul_tdiv_lt
      (wrap64 (sumSq n - (wrap64 (6 * sumSq n)).tdiv 6 + (R - M) * (R + M))) hne
    dsimp only at hprint
    split at hprint
    · cases hprint
    · -- the quotient is at most one off `R + M`, so the dividend is less than `2 * |R - M|` off
      obtain ⟨hr, -⟩ := Prod.mk.inj (Option.some.inj hprint)
      generalize wrap64 (sumSq n - (wrap64 (6 * sumSq n)).tdiv 6 + (R - M) * (R + M)) = val2 at *
      have hquot : (val2.tdiv (R - M)).natAbs ≤ val2.natAbs := by
        rw [Int.natAbs_tdiv]
        exact Nat.div_le_self _ _
      obtain ⟨k, hsum, -, -⟩ := wrap64_spec (R - M + val2.tdiv (R - M))
      have hhalf :=
        natAbs_sub_mul_tdiv_lt (wrap64 (R - M + val2.tdiv (R - M))) (show (2 : Int) ≠ 0 by decide)
      rw [hr] at hhalf
      have hval3 : val2.tdiv (R - M) = R + M - 1 ∨ val2.tdiv (R - M) = R + M ∨
          val2.tdiv (R - M) = R + M + 1 := by
        omega
      refine dvd_of_small_error (e := val2 - (R - M) * (R + M)) (t := t) (by omega) ?_
      rcases hval3 with hval3 | hval3 | hval3
      · rw [hval3, mul_sub] at hrem
        omega
      · rw [hval3] at hrem
        omega
      · rw [hval3, mul_add (R - M) (R + M)] at hrem
        omega
  · intro hdvd
    obtain ⟨t, ht⟩ := error_of_dvd hdvd
    have hval2 : wrap64 (sumSq n - (wrap64 (6 * sumSq n)).tdiv 6 + (R - M) * (R + M)) =
      (R - M) * (R + M) := by
      rw [ht]
      obtain ⟨k, hk, hlow, hhigh⟩ := wrap64_spec (2 ^ 64 * t + (R - M) * (R + M))
      omega
    simp only [hval2]
    rw [if_neg (by omega), Int.mul_tdiv_cancel_left _ hne, show R - M + (R + M) = 2 * R by omega,
      @wrap64_eq (2 * R) (by omega) (by omega), Int.mul_tdiv_cancel_left _ (by decide),
        Int.sub_sub_self,
      wrap64_eq (by omega) (by omega)]

/-- The repeated and the missing number are printed exactly if `n * (n + 1) * (2 * n + 1)`, taken
modulo `6 * 2⁶⁴` into the interval around 0, is a `long long`; in particular where the product
itself is one. -/
theorem repeatMissing_prints_iff (arr : List Int) (n : Nat) (R M : Int)
    (h : RepeatsAndMisses arr n R M) (hint : 2 * (n : Int) + 1 ≤ 2147483647) :
    repeatMissing arr n = some (R, M) ↔
      -2 ^ 63 ≤ ((n : Int) * (n + 1) * (2 * n + 1)).bmod (6 * 2 ^ 64) ∧
        ((n : Int) * (n + 1) * (2 * n + 1)).bmod (6 * 2 ^ 64) < 2 ^ 63 := by
  rw [prints_iff_dvd h hint, six_mul_sumSq, dvd_iff_bmod]

/-- The array of `main`. -/
theorem repeatMissing_prints_iff_demo :
    RepeatsAndMisses [3, 1, 2, 5, 3] 5 3 4 ∧ repeatMissing [3, 1, 2, 5, 3] 5 = some (3, 4) :=
  ⟨⟨by decide, by decide, by decide, by decide⟩,
    (repeatMissing_prints_iff _ 5 3 4 ⟨by decide, by decide, by decide, by decide⟩ (by decide)).2
      (by decide)⟩

/-- Two million numbers, with 2 in the place of 1. -/
theorem repeatMissing_overflows : RepeatsAndMisses (2 :: (upTo 1999999).map (· + 1)) 2000000 2 1 ∧
      repeatMissing (2 :: (upTo 1999999).map (· + 1)) 2000000 ≠ some (2, 1) := by
  have hperm : (1 :: 2 :: (upTo 1999999).map (· + 1)).Perm (2 :: upTo 2000000) := by
    rw [show upTo 2000000 = 1 :: (upTo 1999999).map (· + 1) from ?_]
    · exact .swap _ _ _
    · rw [upTo, range_succ_eq_map]
      simp [upTo]
  have h : RepeatsAndMisses (2 :: (upTo 1999999).map (· + 1)) 2000000 2 1 :=
    ⟨mem_upTo.2 (by decide), mem_upTo.2 (by decide), by decide, hperm⟩
  refine ⟨h, ?_⟩
  have hprint := prints_iff_dvd h (by decide)
  rw [Nat.cast_ofNat] at hprint
  rw [Ne, hprint, six_mul_sumSq]
  decide

end SystemsLab.Majority
