import Mathlib.Data.List.Dedup

/-!
# The distinct elements of a list by their last occurrence

`recent l` has every element of `l` once, the one that occurred last in front.  Its first `n`
elements are a function of the first `n` elements before the last step and of that step
(`take_recent_concat`): a least-recently-used pool of `n` places needs to know nothing else.
`Before` is the order of a list.
-/

namespace SystemsLab.Recent

open List

variable {α : Type*}

/-! ## The order of a list -/

def Before (l : List α) (a b : α) : Prop := [a, b] <+ l

variable {l t : List α} {a b c x : α}

theorem before_cons_iff : Before (x :: l) a b ↔ Before l a b ∨ a = x ∧ b ∈ l := by
  rw [Before, Before, sublist_cons_iff]
  simp

theorem before_cons_self (hb : b ∈ l) : Before (a :: l) a b := before_cons_iff.2 (.inr ⟨rfl, hb⟩)

theorem Before.cons (h : Before l a b) : Before (x :: l) a b := before_cons_iff.2 (.inl h)

theorem Before.mem_left (h : Before l a b) : a ∈ l := h.subset (by simp)

theorem Before.mem_right (h : Before l a b) : b ∈ l := h.subset (by simp)

theorem Before.ne (hl : l.Nodup) (h : Before l a b) : a ≠ b := by
  simpa using hl.sublist h

theorem Before.mem_behind (hl : (l ++ a :: t).Nodup) (h : Before (l ++ a :: t) a b) : b ∈ t := by
  induction l with
  | nil =>
    rcases before_cons_iff.1 h with h | h
    · exact h.mem_right
    · exact h.2
  | cons x l ih =>
    rw [cons_append, nodup_cons] at hl
    rcases before_cons_iff.1 h with h | ⟨rfl, -⟩
    · exact ih hl.2 h
    · exact absurd (by simp) hl.1

theorem Before.trans (hl : l.Nodup) (hab : Before l a b) (hbc : Before l b c) : Before l a c := by
  obtain ⟨l1, l2, rfl⟩ := append_of_mem hab.mem_left
  rcases append_of_mem (hab.mem_behind hl) with ⟨l3, l4, rfl⟩
  have hc : c ∈ l4 := by
    rw [← cons_append, ← append_assoc] at hl hbc
    exact hbc.mem_behind hl
  exact (Sublist.cons_cons a (singleton_sublist.2 (by simp [hc]))).trans (sublist_append_right ..)

theorem Before.ne_head (hl : l.Nodup) (h : Before l a b) (hx : l.head? = some x) : b ≠ x := by
  obtain ⟨rest, rfl⟩ := head?_eq_some_iff.1 hx
  rintro rfl
  have hb := (nodup_cons.1 hl).1
  rcases before_cons_iff.1 h with h | h
  · exact hb h.mem_right
  · exact hb h.2

theorem Before.erase [DecidableEq α] (h : Before l a b) (ha : a ≠ x) (hb : b ≠ x) :
    Before (l.erase x) a b := by
  have herase := Sublist.erase x h
  rwa [erase_of_not_mem (by simp [ha.symm, hb.symm])] at herase

/-! ## The last occurrences -/

variable [DecidableEq α]

/-- The distinct elements, the most recent one first. -/
def recent (l : List α) : List α := l.dedup.reverse

theorem nodup_recent (l : List α) : (recent l).Nodup := by
  rw [recent, nodup_reverse]
  exact nodup_dedup l

theorem length_recent (l : List α) : (recent l).length = l.dedup.length := length_reverse

theorem dedup_concat (l : List α) (x : α) :
    (l ++ [x]).dedup = l.dedup.filter (fun y => y != x) ++ [x] := by
  induction l with
  | nil => rfl
  | cons y l ih =>
    rw [cons_append]
    by_cases hyl : y ∈ l
    · rw [dedup_cons_of_mem (mem_append_left _ hyl), dedup_cons_of_mem hyl, ih]
    · rw [dedup_cons_of_notMem hyl]
      by_cases hyx : y = x
      · -- the earlier occurrence of `x` is dropped
        subst hyx
        rw [dedup_cons_of_mem (by simp), ih, filter_cons_of_neg (by simp)]
      · have hy : y ∉ l ++ [x] := by simp [hyl, hyx]
        rw [dedup_cons_of_notMem hy, ih, filter_cons_of_pos (by simp [hyx]), cons_append]

theorem recent_concat (l : List α) (x : α) : recent (l ++ [x]) = x :: (recent l).erase x := by
  rw [(nodup_recent l).erase_eq_filter, recent, dedup_concat, reverse_append, ← filter_reverse]
  rfl

theorem take_erase (m : Nat) (l : List α) (x : α) :
    ((l.take (m + 1)).erase x).take m = (l.erase x).take m := by
  induction l generalizing m with
  | nil => rfl
  | cons y l ih =>
    rw [take_succ_cons, erase_cons, erase_cons]
    split
    · rw [take_take, Nat.min_self]
    · cases m with
      | zero => rfl
      | succ m => rw [take_succ_cons, take_succ_cons, ih]

/-- A pool of `n` places that makes room for `x` by giving up its oldest element. -/
def keep (n : Nat) (l : List α) (x : α) : List α := (x :: l.erase x).take n

theorem take_recent_concat (n : Nat) (l : List α) (x : α) :
    (recent (l ++ [x])).take n = keep n ((recent l).take n) x := by
  rw [recent_concat, keep]
  cases n with
  | zero => rfl
  | succ m => rw [take_succ_cons, take_succ_cons, take_erase]

theorem keep_of_mem {n : Nat} (hlen : l.length ≤ n) (hx : x ∈ l) : keep n l x = x :: l.erase x := by
  apply take_of_length_le
  have hpos := length_pos_of_mem hx
  rw [length_cons, length_erase_of_mem hx]
  omega

theorem keep_of_lt {n : Nat} (hlen : l.length < n) (hx : x ∉ l) : keep n l x = x :: l := by
  rw [keep, erase_of_not_mem hx]
  exact take_of_length_le hlen

theorem keep_of_full {y : α} (hx : x ∉ l ++ [y]) : keep (l.length + 1) (l ++ [y]) x = x :: l := by
  rw [keep, erase_of_not_mem hx, take_succ_cons, take_left]

end SystemsLab.Recent
