import SystemsLab.CLib.CArray
import SystemsLab.CLib.CString

/-!
# Strings in arrays of characters

A `char[n]` is looked at byte by byte here, because `strncpy` may leave an array without a
terminator.

An array whose last byte is zero keeps it under `strncpy(a, s, n - 1)`, so writing the terminator
afterwards changes nothing (`Holds.set_last`).
-/

namespace SystemsLab.CharArray

open List CArray

variable {n : Nat} {a dst : CArray UInt8 n} {s : CString}

def strncpy (dst : CArray UInt8 n) (s : CString) (w : Nat) : Option (CArray UInt8 n) :=
  if w ≤ n then some ⟨fun i => if i.val < w then (s.bytes[i.val]?).getD 0 else dst.slot i⟩ else none

def text (a : CArray UInt8 n) : Option CString :=
  if 0 ∈ a.front n then some (.ofBytes (a.front n)) else none

structure Holds (a : CArray UInt8 n) (s : CString) : Prop where
  text : text a = some s
  last : a.get (n - 1) = some 0

theorem get_fill {α : Type} (v : α) {i : Nat} (h : i < n) : (fill v : CArray α n).get i = some v :=
  dif_pos h

theorem front_of_padded {bytes : List UInt8} (hlen : bytes.length < n)
    (hget : ∀ i, i < n → a.get i = some ((bytes[i]?).getD 0)) :
    a.front n = bytes ++ 0 :: replicate (n - bytes.length - 1) 0 := by
  refine front_eq ?_ le_rfl ?_
  · rw [length_append, length_cons, length_replicate]
    omega
  · intro i hi
    rw [hget i hi]
    by_cases hin : i < bytes.length
    · rw [getElem?_append_left hin, getElem?_eq_getElem hin]
      rfl
    · rw [← replicate_succ, getElem?_append_right (Nat.le_of_not_lt hin),
        getElem?_eq_none (Nat.le_of_not_lt hin), getElem?_replicate, if_pos (by omega)]
      rfl

theorem strncpy_holds (hlast : dst.get (n - 1) = some 0) (hs : s.bytes.length < n) :
    ∃ a, strncpy dst s (n - 1) = some a ∧ Holds a s := by
  refine ⟨_, if_pos (Nat.sub_le n 1), ?_⟩
  generalize harray : (CArray.mk _ : CArray UInt8 n) = a
  have hget : ∀ i, i < n → a.get i = some ((s.bytes[i]?).getD 0) := by
    intro i hi
    rw [← harray, CArray.get, dif_pos hi]
    dsimp only
    by_cases hlt : i < n - 1
    · rw [if_pos hlt]
    · -- the byte that `strncpy` does not write
      obtain rfl : i = n - 1 := by omega
      rw [if_neg hlt, getElem?_eq_none (by omega)]
      rwa [CArray.get, dif_pos hi] at hlast
  have hfront := front_of_padded hs hget
  constructor
  · rw [text, hfront, if_pos (by simp), CString.ofBytes_terminated]
  · rw [hget (n - 1) (by omega), getElem?_eq_none (by omega)]
    rfl

namespace Holds

theorem length_lt (h : Holds a s) : s.bytes.length < n := by
  have htext := h.text
  rw [CharArray.text] at htext
  split_ifs at htext with hnul
  cases htext
  -- the terminator is one of the `n` bytes, and not one of the string
  have hne : (a.front n).takeWhile (· ≠ 0) ≠ a.front n := by
    intro heq
    rw [takeWhile_eq_self_iff] at heq
    exact absurd rfl (of_decide_eq_true (heq 0 hnul))
  have hlt := (List.takeWhile_prefix (l := a.front n) fun c => decide (c ≠ 0)).length_le
  rw [length_front a le_rfl] at hlt
  refine lt_of_le_of_ne hlt fun heq => hne ?_
  exact (List.takeWhile_prefix _).eq_of_length (heq.trans (length_front a le_rfl).symm)

/-- The terminator is there already. -/
theorem set_last (h : Holds a s) : a.set (n - 1) 0 = some a := by
  have hn : n - 1 < n := by
    have hlt := h.length_lt
    omega
  have hlast := h.last
  rw [CArray.get, dif_pos hn, Option.some.injEq] at hlast
  rw [CArray.set, dif_pos hn, ← hlast, Function.update_eq_self]

end Holds

end SystemsLab.CharArray
