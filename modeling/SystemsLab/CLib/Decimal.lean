import SystemsLab.CLib.Scanf

/-!
# `int` values: decimal text and quotients

`printInt` is the conversion `%d` of `printf`, and `atoi` reads a number back.  `atoi` skips white
space, takes an optional sign and the digits that follow, and goes through `long`: a number that
does not fit in it becomes the nearest one that does, and the low 32 bits are the result.

`divide` is a division behind a test of the divisor for 0.  The quotient of `INT_MIN` and -1 is not
an `int` either, and the processor traps.
-/

namespace SystemsLab.Decimal

open List

def isDigit (c : UInt8) : Bool := 48 ≤ c && c ≤ 57

def digitsValue (bytes : List UInt8) : Nat := bytes.foldl (fun v c => 10 * v + (c.toNat - 48)) 0

def decimal (n : Nat) : List UInt8 := (Nat.toDigits 10 n).map fun c => UInt8.ofNat c.toNat

/-- `printf("%d", v)` -/
def printInt (v : Int32) : List UInt8 :=
  if v.toInt < 0 then 45 :: decimal v.toInt.natAbs else decimal v.toInt.natAbs

/-- `long` to `int`, after the value was limited to the range of `long`. -/
def toInt32 (v : Int) : Int32 := Int32.ofInt (max (-2 ^ 63) (min v (2 ^ 63 - 1)))

def atoi (text : List UInt8) : Int32 :=
  match text.dropWhile Scanf.isSpace with
  | 45 :: digits => toInt32 (-(digitsValue (digits.takeWhile isDigit) : Int))
  | 43 :: digits => toInt32 (digitsValue (digits.takeWhile isDigit))
  | digits => toInt32 (digitsValue (digits.takeWhile isDigit))

/-! ## Reading a printed number -/

theorem toNat_ofNat_of_isDigit {c : Char} (h : c.isDigit) :
    (UInt8.ofNat c.toNat).toNat = c.toNat ∧ isDigit (UInt8.ofNat c.toNat) := by
  have hrange : 48 ≤ c.toNat ∧ c.toNat ≤ 57 := by
    simpa [Char.isDigit, UInt32.le_iff_toNat_le] using h
  have hval : (UInt8.ofNat c.toNat).toNat = c.toNat := by
    exact Nat.mod_eq_of_lt (by omega)
  refine ⟨hval, ?_⟩
  simp only [isDigit, Bool.and_eq_true, decide_eq_true_eq, UInt8.le_iff_toNat_le, hval]
  exact hrange

theorem isDigit_of_mem_decimal {n : Nat} {c : UInt8} (h : c ∈ decimal n) : isDigit c := by
  rcases mem_map.1 h with ⟨d, hd, rfl⟩
  exact (toNat_ofNat_of_isDigit (Nat.isDigit_of_mem_toDigits (by decide) (by decide) hd)).2

theorem decimal_ne_nil (n : Nat) : decimal n ≠ [] := by
  intro h
  have hlen := congrArg List.length h
  rw [decimal, length_map] at hlen
  exact absurd hlen (Nat.pos_iff_ne_zero.1 Nat.length_toDigits_pos)

theorem digitsValue_decimal (n : Nat) : digitsValue (decimal n) = n := by
  have hfold : ∀ (l : List Char) (v : Nat), (∀ c ∈ l, c.isDigit) →
      (l.map fun c => UInt8.ofNat c.toNat).foldl (fun v c => 10 * v + (c.toNat - 48)) v =
        Nat.ofDigitChars 10 l v := by
    intro l v hl
    induction l generalizing v with
    | nil => rfl
    | cons c l ih =>
      rw [map_cons, foldl_cons, (toNat_ofNat_of_isDigit (hl c (by simp))).1,
        ih _ fun d hd => hl d (mem_cons_of_mem _ hd), Nat.ofDigitChars_cons]
      rfl
  rw [digitsValue, decimal, hfold _ 0 fun c hc =>
    Nat.isDigit_of_mem_toDigits (by decide) (by decide) hc]
  exact Nat.ofDigitChars_ten_toDigits

theorem toInt32_toInt (v : Int32) : toInt32 v.toInt = v := by
  have hlo := v.le_toInt
  have hhi := v.toInt_lt
  have hclamp : max (-2 ^ 63) (min v.toInt (2 ^ 63 - 1)) = v.toInt := by omega
  rw [toInt32, hclamp, Int32.ofInt_toInt]

theorem takeWhile_decimal (n : Nat) : (decimal n).takeWhile isDigit = decimal n :=
  takeWhile_eq_self_iff.2 fun _ h => isDigit_of_mem_decimal h

theorem not_isSpace_of_isDigit {c : UInt8} (h : isDigit c) : Scanf.isSpace c = false := by
  simp only [isDigit, Bool.and_eq_true, decide_eq_true_eq] at h
  have hlo : 48 ≤ c.toNat := h.1
  rw [Bool.eq_false_iff]
  simp only [Scanf.isSpace, ne_eq, Bool.or_eq_true, Bool.and_eq_true, decide_eq_true_eq]
  rintro (rfl | ⟨-, hhi⟩)
  · exact absurd hlo (by decide)
  · have : c.toNat ≤ 13 := hhi
    omega

/-- Text that starts with a digit is read up to the first byte that is none. -/
theorem atoi_of_isDigit {c : UInt8} {text : List UInt8} (h : isDigit c) :
    atoi (c :: text) = toInt32 (digitsValue ((c :: text).takeWhile isDigit)) := by
  rw [atoi, dropWhile_cons_of_neg (by simp [not_isSpace_of_isDigit h])]
  split
  · next hsign =>
      cases hsign
      exact absurd h (by decide)
  · next hsign =>
      cases hsign
      exact absurd h (by decide)
  · rfl

theorem atoi_decimal (n : Nat) : atoi (decimal n) = toInt32 n := by
  rcases exists_cons_of_ne_nil (decimal_ne_nil n) with ⟨c, text, htext⟩
  have hc : isDigit c := isDigit_of_mem_decimal (n := n) (by rw [htext]; exact mem_cons_self)
  rw [htext, atoi_of_isDigit hc, ← htext, takeWhile_decimal, digitsValue_decimal]

/-! ## Quotients -/

/-- `r ? l / r : 0`; `none` is the trap. -/
def divide (l r : Int32) : Option Int32 :=
  if r = 0 then some 0
  else if l = Int32.minValue ∧ r = -1 then none
  else some (l / r)

/-- The integer between `INT_MIN` and `INT_MAX` that is equal to `x` modulo 2³². -/
def wrap (x : Int) : Int := x.bmod (2 ^ 32)

variable {l r v : Int32}

/-- Only the quotient of `INT_MIN` and -1 does not exist. -/
theorem divide_eq_none_iff : divide l r = none ↔ l.toInt = -2 ^ 31 ∧ r.toInt = -1 := by
  have hmin : l = Int32.minValue ↔ l.toInt = -2 ^ 31 := (Int32.toInt_inj (y := Int32.minValue)).symm
  have hone : r = -1 ↔ r.toInt = -1 := (Int32.toInt_inj (y := -1)).symm
  rw [divide, ← hmin, ← hone]
  split
  · rename_i hzero
    simp [hzero]
  · simp

/-- A quotient that exists is that of the integers. -/
theorem toInt_divide (hv : divide l r = some v) :
    v.toInt = if r.toInt = 0 then 0 else l.toInt.tdiv r.toInt := by
  have hzero : r.toInt = 0 ↔ r = 0 := by rw [← Int32.toInt_zero, Int32.toInt_inj]
  rw [divide] at hv
  by_cases hr : r = 0
  · rw [if_pos hr, Option.some.injEq] at hv
    rw [if_pos (hzero.2 hr), ← hv, Int32.toInt_zero]
  · rw [if_neg hr] at hv
    rw [if_neg fun h => hr (hzero.1 h)]
    split at hv
    · cases hv
    · rename_i hne
      cases hv
      by_cases hl : l = Int32.minValue
      · exact Int32.toInt_div_of_ne_right _ _ fun hr' => hne ⟨hl, hr'⟩
      · exact Int32.toInt_div_of_ne_left _ _ hl

end SystemsLab.Decimal
