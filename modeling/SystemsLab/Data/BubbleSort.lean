import Mathlib.Data.List.Basic
import Mathlib.Order.Lattice

/-!
# The two nested loops of bubble sort

```
for (i = 0; i < n - 1; i++)
  for (j = 0; j < n - i - 1; j++)
    if (a[j] > a[j + 1]) swap(a[j], a[j + 1]);
```

The elements are compared by a key.
-/

namespace SystemsLab.BubbleSort

open List

variable {α κ : Type*} [LinearOrder κ]

/-- The inner loop with `r` comparisons left; the list starts at `a[j]`. -/
def bubblePass (key : α → κ) : Nat → List α → List α
  | r + 1, x :: y :: l =>
    if key y < key x then y :: bubblePass key r (x :: l) else x :: bubblePass key r (y :: l)
  | _, l => l

def bubbleSort (key : α → κ) (l : List α) : List α :=
  (List.range (l.length - 1)).foldl (fun a i => bubblePass key (l.length - i - 1) a) l

theorem bubblePass_perm (key : α → κ) (r : Nat) (l : List α) : (bubblePass key r l).Perm l := by
  induction r generalizing l with
  | zero =>
    rw [bubblePass]
    nofun
  | succ r ih =>
    cases l with
    | nil => exact .refl _
    | cons x l =>
      cases l with
      | nil => exact .refl _
      | cons y l =>
        rw [bubblePass]
        split
        · exact ((ih (x :: l)).cons y).trans (Perm.swap x y l)
        · exact (ih (y :: l)).cons x

theorem bubbleSort_perm (key : α → κ) (l : List α) : (bubbleSort key l).Perm l := by
  -- every pass permutes what the passes before it left
  have hpasses : ∀ (is : List Nat) (a : List α),
      (is.foldl (fun a i => bubblePass key (l.length - i - 1) a) a).Perm a := by
    intro is
    induction is with
    | nil => exact Perm.refl
    | cons i is ih =>
      intro a
      exact (ih _).trans (bubblePass_perm key _ a)
  exact hpasses _ l

/-- A pass takes a greatest element to the end of the part that it goes over. -/
theorem bubblePass_eq (key : α → κ) {r : Nat} {l : List α} (h : r < l.length) :
    ∃ front top, bubblePass key r l = front ++ top :: l.drop (r + 1) ∧
      (front ++ [top]).Perm (l.take (r + 1)) ∧ ∀ x ∈ front, key x ≤ key top := by
  induction r generalizing l with
  | zero =>
    rcases l with - | ⟨x, l⟩
    · cases h
    · exact ⟨[], x, by simp [bubblePass], by simp, nofun⟩
  | succ r ih =>
    rcases l with - | ⟨x, - | ⟨y, l⟩⟩
    · cases h
    · simp at h
    · -- the smaller one of the two stays, the pass goes on with the other one
      have hstep : ∀ a b, key a ≤ key b → [a, b].Perm [x, y] →
          ∃ front top, a :: bubblePass key r (b :: l) = front ++ top ::
            (x :: y :: l).drop (r + 1 + 1) ∧
            (front ++ [top]).Perm ((x :: y :: l).take (r + 1 + 1)) ∧ ∀ z ∈ front,
              key z ≤ key top := by
        intro a b hle hperm
        rcases ih (l := b :: l) (by simpa using h) with ⟨front, top, hpass, hfront, htop⟩
        have hb : key b ≤ key top := by
          rcases mem_append.1 (hfront.mem_iff.2 (mem_cons_self : b ∈ b :: l.take r))
            with hmem | hmem
          · exact htop b hmem
          · rw [mem_singleton.1 hmem]
        refine ⟨a :: front, top, by rw [hpass]; rfl, ?_, fun z hz => ?_⟩
        · exact (hfront.cons a).trans (hperm.append_right (l.take r))
        · rcases mem_cons.1 hz with rfl | hz
          · exact hle.trans hb
          · exact htop z hz
      rw [bubblePass]
      split_ifs with hlt
      · exact hstep y x hlt.le (Perm.swap x y [])
      · exact hstep x y (not_lt.1 hlt) (Perm.refl _)

/-- The first elements that a pass leaves are decided by those that it reads first. -/
theorem take_bubblePass (key : α → κ) {r p : Nat} {l : List α} (hr : r < l.length) (hp : p ≤ r) :
    ∃ front top, (bubblePass key r l).take p = front ∧ (front ++ [top]).Perm (l.take (p + 1)) ∧
      ∀ x ∈ front, key x ≤ key top := by
  have htake : (bubblePass key r l).take p = (bubblePass key p l).take p := by
    induction p generalizing r l with
    | zero => rfl
    | succ p ih =>
      rcases r with - | r
      · cases hp
      · rcases l with - | ⟨x, - | ⟨y, l⟩⟩
        · cases hr
        · simp at hr
        · have hrest : ∀ z, (bubblePass key r (z :: l)).take p =
            (bubblePass key p (z :: l)).take p := fun z =>
            ih (by simpa using hr) (Nat.le_of_succ_le_succ hp)
          rw [bubblePass, bubblePass]
          split
          · rw [take_succ_cons, take_succ_cons, hrest]
          · rw [take_succ_cons, take_succ_cons, hrest]
  rcases bubblePass_eq key (hp.trans_lt hr) with ⟨front, top, hpass, hperm, htop⟩
  have hlen : front.length = p := by
    have hlen := hperm.length_eq
    rw [length_append, length_singleton, length_take] at hlen
    omega
  exact ⟨front, top, by rw [htake, hpass, ← hlen, take_left], hperm, htop⟩

theorem bubbleSort_sorted (key : α → κ) (l : List α) :
    (bubbleSort key l).Pairwise fun x y => key x ≤ key y := by
  -- after `m` passes the last `m` elements are in their places
  have hpasses : ∀ m, m ≤ l.length → ∃ front last,
      (range m).foldl (fun a i => bubblePass key (l.length - i - 1) a) l = front ++ last ∧
        front.length = l.length - m ∧ last.Pairwise (fun x y => key x ≤ key y) ∧
        ∀ x ∈ front, ∀ y ∈ last, key x ≤ key y := by
    intro m
    induction m with
    | zero => exact fun _ => ⟨l, [], by simp, rfl, Pairwise.nil, nofun⟩
    | succ m ih =>
      intro hm
      rcases ih (Nat.le_of_succ_le hm) with ⟨front, last, ha, hlen, hsorted, hle⟩
      have hr : l.length - m - 1 + 1 = front.length := by omega
      have hlt : l.length - m - 1 < (front ++ last).length := by
        rw [length_append]
        omega
      rcases bubblePass_eq key hlt with ⟨front', top, hpass, hperm, htop⟩
      rw [hr, drop_left] at hpass
      rw [hr, take_left] at hperm
      have hmem : ∀ x ∈ front' ++ [top], x ∈ front := fun x hx => hperm.mem_iff.1 hx
      refine ⟨front', top :: last, ?_, ?_, pairwise_cons.2 ⟨?_, hsorted⟩, fun x hx y hy => ?_⟩
      · rwa [range_succ, foldl_append, ha]
      · have hlen' := hperm.length_eq
        rw [length_append, length_singleton] at hlen'
        omega
      · exact hle top (hmem top (by simp))
      · rcases mem_cons.1 hy with rfl | hy
        · exact htop x hx
        · exact hle x (hmem x (mem_append_left _ hx)) y hy
  rcases hpasses (l.length - 1) (Nat.sub_le _ _) with ⟨front, last, ha, hlen, hsorted, hle⟩
  rw [bubbleSort, ha]
  refine pairwise_append.2 ⟨?_, hsorted, hle⟩
  rcases front with - | ⟨x, - | ⟨y, front⟩⟩
  · exact Pairwise.nil
  · exact pairwise_singleton _ _
  · simp only [length_cons] at hlen
    omega

end SystemsLab.BubbleSort
