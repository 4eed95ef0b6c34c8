import Mathlib.Data.List.Rotate

/-!
# `rotate_string_k_times.c`

The three reversals of `main`.  The second one starts at `k + 1`, not at `k`, so the character at
`k` keeps its place: from `a ++ c :: b` with `k` characters in `a` the result is `b ++ c :: a`,
where a rotation gives `c :: b ++ a`.
-/

namespace SystemsLab.StringRotation

open List Option

/-- `reverse`; none for an access outside the string. -/
def reverse (str : List UInt8) (left right : Int) : Option (List UInt8) :=
  if left < right then do
    let temp ← str[left.toNat]?
    let other ← str[right.toNat]?
    reverse ((str.set left.toNat other).set right.toNat temp) (left + 1) (right - 1)
  else some str
termination_by (right - left).toNat

/-- `main`, after the input; none for the remainder by zero. -/
def rotate (str : List UInt8) (k : Nat) : Option (List UInt8) :=
  let n := str.length
  if n = 0 then none
  else do
    let k := k % n
    let str ← reverse str 0 (k - 1)
    let str ← reverse str (k + 1) (n - 1)
    reverse str 0 (n - 1)

/-- All characters from `k % n` on are equal. -/
def EqualFrom (str : List UInt8) (k : Nat) : Prop :=
  ∀ x ∈ str.drop (k % str.length), ∀ y ∈ str.drop (k % str.length), x = y

variable {str a b : List UInt8} {c : UInt8} {k : Nat}

/-- The loop reverses the part between its two ends.  The induction takes one character off each
end. -/
theorem reverse_eq (a b d : List UInt8) :
    reverse (a ++ b ++ d) a.length (a.length + b.length - 1) = some (a ++ b.reverse ++ d) := by
  induction b using List.bidirectionalRec generalizing a d with
  | nil =>
    rw [reverse, if_neg (by rw [length_nil]; omega)]
    rfl
  | singleton x =>
    rw [reverse, if_neg (by simp)]
    rfl
  | cons_append x b y ih =>
    have hright : ((a.length : Int) + (x :: (b ++ [y])).length - 1).toNat =
      a.length + (b.length + 1) := by
      simp only [length_cons, length_append, length_nil]
      omega
    have hstr : a ++ (x :: (b ++ [y])) ++ d = a ++ x :: (b ++ y :: d) := by simp
    have hswap : ((a ++ x :: (b ++ y :: d)).set a.length y).set (a.length + (b.length + 1)) x =
        (a ++ [y]) ++ b ++ (x :: d) := by simp
    rw [reverse, if_pos (by simp only [length_cons, length_append]; omega), hright,
      Int.toNat_natCast, hstr]
    have hx : (a ++ x :: (b ++ y :: d))[a.length]? = some x := by simp
    have hy : (a ++ x :: (b ++ y :: d))[a.length + (b.length + 1)]? = some y := by simp
    have hinner := ih (a ++ [y]) (x :: d)
    simp only [hx, hy, bind_eq_bind, bind_some]
    convert hinner using 2
    · simp
    · simp
      omega
    · simp

theorem rotate_split (a b : List UInt8) (c : UInt8) (h : k % (a ++ c :: b).length = a.length) :
    rotate (a ++ c :: b) k = some (b ++ c :: a) := by
  have hfirst : reverse (a ++ c :: b) 0 (a.length - 1) = some (a.reverse ++ c :: b) := by
    simpa using reverse_eq [] a (c :: b)
  have hsecond : reverse (a.reverse ++ c :: b) (a.length + 1) ((a ++ c :: b).length - 1) =
      some (a.reverse ++ c :: b.reverse) := by
    convert reverse_eq (a.reverse ++ [c]) b [] using 2
    · simp
    · simp
    · simp
      omega
    · simp
  have hthird : reverse (a.reverse ++ c :: b.reverse) 0 ((a ++ c :: b).length - 1) =
    some (b ++ c :: a) := by
    simpa using reverse_eq [] (a.reverse ++ c :: b.reverse) []
  rw [rotate, if_neg (by simp), h]
  simp only [bind_eq_bind, hfirst, hsecond, hthird, bind_some]

theorem append_singleton_eq_iff : b ++ [c] = c :: b ↔ ∀ x ∈ b, x = c := by
  induction b with
  | nil => simp
  | cons y b ih =>
    rw [cons_append, cons.injEq, forall_mem_cons]
    refine and_congr_right fun hy => ?_
    rw [hy, ih]

theorem rotate_spec (hne : str ≠ []) (k : Nat) :
    ∃ result, rotate str k = some result ∧ (result = str.rotate k ↔ EqualFrom str k) := by
  unfold EqualFrom
  have hlt : k % str.length < str.length := Nat.mod_lt _ (length_pos_iff.2 hne)
  rcases hdrop : str.drop (k % str.length) with - | ⟨c, b⟩
  · exact absurd hlt (not_lt.2 (drop_eq_nil_iff.1 hdrop))
  · have hsplit := take_append_drop (k % str.length) str
    rw [hdrop] at hsplit
    have hlen : (str.take (k % str.length)).length = k % str.length := length_take_of_le hlt.le
    refine ⟨_,
      (congrArg (rotate · k) hsplit).symm.trans (rotate_split _ b c (by rw [hsplit, hlen])), ?_⟩
    rw [rotate_eq_drop_append_take_mod, hdrop, ← singleton_append, ← append_assoc, append_left_inj,
      append_singleton_eq_iff]
    refine ⟨fun h => ?_, fun h x hx => h x (mem_cons_of_mem _ hx) c mem_cons_self⟩
    have hall : ∀ x ∈ c :: b, x = c := forall_mem_cons.2 ⟨rfl, h⟩
    exact fun x hx y hy => (hall x hx).trans (hall y hy).symm

theorem rotate_of_equalFrom (hne : str ≠ []) (h : EqualFrom str k) :
    rotate str k = some (str.rotate k) := by
  rcases rotate_spec hne k with ⟨result, hresult, hiff⟩
  rw [hresult, hiff.2 h]

/-- The result of the three calls is `s[k mod n ..]` followed by `s[.. k mod n]` exactly where all
characters from `k mod n` on are equal.  Rotations for which this holds compose. -/
theorem rotates_iff (str : List UInt8) (hne : str ≠ []) :
    (∀ k, ∃ result, rotate str k = some result ∧
      (result = str.drop (k % str.length) ++ str.take (k % str.length) ↔ EqualFrom str k)) ∧
    ∀ j k, EqualFrom str j → EqualFrom (str.rotate j) k → EqualFrom str (j + k) →
      (rotate str j).bind (rotate · k) = rotate str (j + k) := by
  refine ⟨fun k => ?_, fun j k hj hk hjk => ?_⟩
  · rw [← rotate_eq_drop_append_take_mod]
    exact rotate_spec hne k
  · have hne' : str.rotate j ≠ [] := by simpa using hne
    rw [rotate_of_equalFrom hne hj, bind_some, rotate_of_equalFrom hne' hk,
      rotate_of_equalFrom hne hjk, rotate_rotate]

/-- `"abb"` by 2 and by 2 again. -/
theorem rotates_iff_demo : rotate [97, 98, 98] 4 = some [98, 98, 97] ∧
      (rotate [97, 98, 98] 2).bind (rotate · 2) = rotate [97, 98, 98] 4 := by
  rcases rotates_iff [97, 98, 98] (by decide) with ⟨hone, hboth⟩
  rcases hone 4 with ⟨result, hresult, hiff⟩
  refine ⟨hresult.trans (congrArg some (hiff.2 (by simp [EqualFrom]))), hboth 2 2 ?_ ?_ ?_⟩ <;>
    simp [EqualFrom]

/-- `"abc"` becomes `"cba"`. -/
theorem rotate_keeps_middle : rotate [97, 98, 99] 1 = some [99, 98, 97] ∧
    [97, 98, 99].rotate 1 = [98, 99, 97] :=
  ⟨rotate_split [97] [99] 98 rfl, rfl⟩

end SystemsLab.StringRotation
