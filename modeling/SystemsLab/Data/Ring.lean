import Mathlib.Data.Fin.Basic
import Mathlib.Data.List.Range
import Mathlib.Data.Nat.ModEq

/-!
# A bounded queue in an array

```
a[back] = x;  back = (back + 1) % n;  count++;
x = a[front]; front = (front + 1) % n; count--;
```

`contents` is the queue that the array holds.  As long as `InStep` says that the two indices are
`count` apart and there are at most `n` elements, `push` adds at its end and `pop` takes from its
front.
-/

namespace SystemsLab

open Function List

structure Ring (α : Type*) (n : Nat) where
  cells : Fin n → α
  front : Fin n
  back : Fin n
  count : Nat

namespace Ring

variable {α : Type*} {n : Nat} [NeZero n] {r : Ring α n}

def empty (x : α) : Ring α n := ⟨fun _ => x, 0, 0, 0⟩

def push (r : Ring α n) (x : α) : Ring α n :=
  { r with cells := update r.cells r.back x, back := r.back + 1, count := r.count + 1 }

def first (r : Ring α n) : α := r.cells r.front

def pop (r : Ring α n) : Ring α n :=
  { r with front := r.front + 1, count := r.count - 1 }

def index (r : Ring α n) (i : Nat) : Fin n := r.front + Fin.ofNat n i

def contents (r : Ring α n) : List α := (List.range r.count).map fun i => r.cells (r.index i)

structure InStep (r : Ring α n) : Prop where
  back : r.back = r.index r.count
  count_le : r.count ≤ n

theorem val_index (r : Ring α n) (i : Nat) : (r.index i : Nat) = (r.front + i) % n := by
  rw [index, Fin.val_add, Fin.val_ofNat, Nat.add_mod_mod]

@[simp] theorem length_contents (r : Ring α n) : r.contents.length = r.count := by
  simp [contents]

theorem index_succ (r : Ring α n) (i : Nat) : r.index (i + 1) = r.index i + 1 := by
  apply Fin.ext
  rw [val_index, Fin.val_add, val_index, Fin.val_one', Nat.mod_add_mod, Nat.add_mod_mod, add_assoc]

theorem index_ne {i j : Nat} (hi : i < j) (hj : j < n) : r.index i ≠ r.index j := by
  intro heq
  have hval := congrArg Fin.val heq
  rw [val_index, val_index] at hval
  -- both differ from the front by less than `n`
  have hmod : Nat.ModEq n i j := Nat.ModEq.add_left_cancel' r.front hval
  have hij := hmod.eq_of_lt_of_lt (hi.trans hj) hj
  omega

theorem empty_inStep (x : α) : (empty x : Ring α n).InStep := ⟨by rw [index]; rfl, Nat.zero_le n⟩

theorem push_inStep (h : r.InStep) (hroom : r.count < n) (x : α) : (r.push x).InStep where
  back := by
    have hnext : (r.push x).index (r.count + 1) = r.index r.count + 1 := index_succ r r.count
    rw [push, h.back]
    exact hnext.symm
  count_le := hroom

theorem contents_push (h : r.InStep) (hroom : r.count < n) (x : α) :
    (r.push x).contents = r.contents ++ [x] := by
  have hold : ∀ i ∈ List.range r.count, update r.cells r.back x (r.index i) =
    r.cells (r.index i) := by
    intro i hi
    rw [h.back]
    exact update_of_ne (index_ne (mem_range.1 hi) hroom) _ _
  have hnew : update r.cells r.back x (r.index r.count) = x := by rw [← h.back, update_self]
  have hpush : (r.push x).contents =
      (List.range (r.count + 1)).map fun i => update r.cells r.back x (r.index i) := rfl
  rw [hpush, range_succ, map_append, map_singleton, hnew, map_congr_left hold]
  rfl

theorem index_pop (r : Ring α n) (i : Nat) : r.pop.index i = r.index (i + 1) := by
  apply Fin.ext
  rw [val_index, val_index, pop, Fin.val_add, Fin.val_one', Nat.add_mod_mod, Nat.mod_add_mod]
  congr 1
  omega

theorem pop_inStep (h : r.InStep) (hsome : r.count ≠ 0) : r.pop.InStep where
  back := by
    have hcount : r.pop.count + 1 = r.count := Nat.succ_pred_eq_of_ne_zero hsome
    rw [index_pop, hcount]
    exact h.back
  count_le := (Nat.sub_le _ _).trans h.count_le

theorem contents_pop (hsome : r.count ≠ 0) : r.contents = r.first :: r.pop.contents := by
  obtain ⟨m, hm⟩ : ∃ m, r.count = m + 1 := Nat.exists_eq_succ_of_ne_zero hsome
  have hpop : r.pop.count = m := by
    rw [pop, hm]
    rfl
  have hfirst : r.cells (r.index 0) = r.first := by
    have hindex : r.index 0 = r.front := by
      apply Fin.ext
      rw [val_index, add_zero, Nat.mod_eq_of_lt r.front.isLt]
    rw [hindex, first]
  rw [contents, hm, range_succ_eq_map, map_cons, map_map, hfirst, contents, hpop]
  congr 1
  apply map_congr_left
  intro i _
  rw [index_pop]
  rfl

end Ring
end SystemsLab
