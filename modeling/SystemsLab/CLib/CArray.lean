import Mathlib.Data.List.OfFn

/-!
# Fixed-size arrays with checked accesses, and the loops over them

`CArray α n` is a C array `a[n]`.  Reads and writes fail outside the bounds, so that a program that
does not fail has stayed inside them.  `front c` is the list of the first `c` elements, the part
that a separate counter declares to be in use.
-/

namespace SystemsLab

open List Option

structure CArray (α : Type) (n : Nat) where
  slot : Fin n → α

namespace CArray

variable {α : Type} {n : Nat}

def fill (v : α) : CArray α n := ⟨fun _ => v⟩

def get (a : CArray α n) (i : Nat) : Option α :=
  if h : i < n then some (a.slot ⟨i, h⟩) else none

def set (a : CArray α n) (i : Nat) (v : α) : Option (CArray α n) :=
  if h : i < n then some ⟨Function.update a.slot ⟨i, h⟩ v⟩ else none

variable {i c pos m : Nat} {a : CArray α n} {x : α}

theorem exists_get (a : CArray α n) (h : i < n) : ∃ x, a.get i = some x :=
  ⟨a.slot ⟨i, h⟩, dif_pos h⟩

theorem get_lt (h : a.get i = some x) : i < n := by
  by_contra hi
  rw [get, dif_neg hi] at h
  cases h

theorem exists_set (a : CArray α n) (h : i < n) (v : α) :
    ∃ a', a.set i v = some a' ∧ ∀ j, a'.get j = if j = i then some v else a.get j := by
  refine ⟨_, dif_pos h, fun j => ?_⟩
  unfold get
  by_cases hj : j = i
  · subst hj
    simp [h]
  · by_cases hjn : j < n
    · simp [hj]
    · simp [hj]

def front (a : CArray α n) (c : Nat) : List α := (List.ofFn a.slot).take c

theorem length_front (a : CArray α n) (h : c ≤ n) : (a.front c).length = c := by
  simp [front, h]

theorem getElem?_front (a : CArray α n) {j : Nat} (h : j < c) : (a.front c)[j]? = a.get j := by
  rw [front, List.getElem?_take_of_lt h, List.getElem?_ofFn]
  rfl

variable {l l2 : List α} {d : Nat} {a' : CArray α n} {v : α}

theorem front_eq (hlen : l.length = c) (hc : c ≤ n) (h : ∀ j, j < c → a.get j = l[j]?) :
    a.front c = l := by
  apply ext_getElem?
  intro j
  by_cases hj : j < c
  · rw [getElem?_front a hj, h j hj]
  · rw [getElem?_eq_none (by rw [length_front a hc]; omega), getElem?_eq_none (by omega)]

theorem front_one (hn : 1 ≤ n) (h : a.get 0 = some x) : a.front 1 = [x] := by
  refine front_eq (length_singleton) hn fun j hj => ?_
  obtain rfl : j = 0 := by omega
  rw [h]
  rfl

theorem take_front (a : CArray α n) (h : d ≤ c) : (a.front c).take d = a.front d := by
  rw [front, front, take_take, min_eq_left h]

theorem front_insert (hpos : pos ≤ c) (hc : c < n)
    (hlow : ∀ j, j < pos → a'.get j = a.get j) (hat : a'.get pos = some v)
    (hhigh : ∀ j, pos ≤ j → j < c → a'.get (j + 1) = a.get j) :
    a'.front (c + 1) = (a.front c).take pos ++ v :: (a.front c).drop pos := by
  have hlen := length_front a hc.le
  have htake : ((a.front c).take pos).length = pos := by rw [length_take, hlen, min_eq_left hpos]
  apply front_eq _ hc
  · intro j hj
    rcases lt_trichotomy j pos with hlt | rfl | hgt
    · rw [hlow j hlt, getElem?_append_left (by rw [htake]; exact hlt),
        getElem?_take_of_lt hlt, getElem?_front a (by omega)]
    · rw [hat, getElem?_append_right (by rw [htake]), htake, Nat.sub_self, getElem?_cons_zero]
    · obtain ⟨i, rfl⟩ : ∃ i, j = i + 1 := ⟨j - 1, by omega⟩
      rw [hhigh i (by omega) (by omega), getElem?_append_right (by rw [htake]; omega), htake,
        show i + 1 - pos = (i - pos) + 1 by omega, getElem?_cons_succ, getElem?_drop,
        show pos + (i - pos) = i by omega, getElem?_front a (by omega)]
  · rw [length_append, htake, length_cons, length_drop, hlen]
    omega

/-! ## Moving elements up -/

/-- `for (j = lo + k - 1; j >= lo; j--) a[j+1] = a[j];` -/
def shiftUp (a : CArray α n) (lo : Nat) : Nat → Option (CArray α n)
  | 0 => some a
  | k + 1 => do
      let x ← a.get (lo + k)
      let a ← a.set (lo + k + 1) x
      shiftUp a lo k

theorem shiftUp_spec (a : CArray α n) (lo k : Nat) (h : lo + k < n) :
    ∃ a', shiftUp a lo k = some a' ∧ ∀ j, a'.get j = if lo < j ∧
      j ≤ lo + k then a.get (j - 1) else a.get j := by
  induction k generalizing a with
  | zero =>
    refine ⟨a, rfl, fun j => ?_⟩
    rw [if_neg (by omega)]
  | succ k ih =>
    rcases exists_get a (i := lo + k) (by omega) with ⟨x, hx⟩
    rcases exists_set a (i := lo + k + 1) (by omega) x with ⟨a1, ha1, hget1⟩
    rcases ih a1 (by omega) with ⟨a2, ha2, hget2⟩
    refine ⟨a2, by simp [shiftUp, hx, ha1, ha2], fun j => ?_⟩
    rw [hget2 j]
    rcases eq_or_ne j (lo + k + 1) with rfl | htop
    · rw [if_neg (by omega), if_pos (by omega), hget1, if_pos rfl, ← hx]
      rfl
    · by_cases hin : lo < j ∧ j ≤ lo + k
      · rw [if_pos hin, if_pos (by omega), hget1, if_neg (by omega)]
      · rw [if_neg hin, if_neg (by omega), hget1, if_neg htop]

theorem exists_insertAt (a : CArray α n) (pos : Nat) (hpos : pos ≤ c) (hc : c < n) (v : α) :
    ∃ a1 a2, shiftUp a pos (c - pos) = some a1 ∧ a1.set pos v = some a2 ∧
      a2.front (c + 1) = (a.front c).take pos ++ v :: (a.front c).drop pos := by
  rcases shiftUp_spec a pos (c - pos) (by omega) with ⟨a1, ha1, hget1⟩
  rcases exists_set a1 (i := pos) (by omega) v with ⟨a2, ha2, hget2⟩
  refine ⟨a1, a2, ha1, ha2, front_insert hpos hc ?_ ?_ ?_⟩
  · intro j hj
    rw [hget2, if_neg (by omega), hget1, if_neg (by omega)]
  · rw [hget2, if_pos rfl]
  · intro j hj hjc
    rw [hget2, if_neg (by omega), hget1, if_pos (by omega), Nat.add_sub_cancel]

/-! ## Moving elements down -/

/-- `for (k = j; k < j + r; k++) a[k] = a[k+1];` -/
def shiftDown : Nat → Nat → CArray α n → Option (CArray α n)
  | 0, _, a => some a
  | r + 1, j, a => do
      let x ← a.get (j + 1)
      let a ← a.set j x
      shiftDown r (j + 1) a

theorem shiftDown_spec (r j : Nat) (a : CArray α n) (h : j + r < n) :
    ∃ a', shiftDown r j a = some a' ∧ ∀ i, a'.get i = if j ≤ i ∧
      i < j + r then a.get (i + 1) else a.get i := by
  induction r generalizing j a with
  | zero =>
    refine ⟨a, rfl, fun i => ?_⟩
    rw [if_neg (by omega)]
  | succ r ih =>
    rcases exists_get a (i := j + 1) (by omega) with ⟨x, hx⟩
    rcases exists_set a (i := j) (by omega) x with ⟨a1, ha1, hget1⟩
    rcases ih (j + 1) a1 (by omega) with ⟨a2, ha2, hget2⟩
    refine ⟨a2, by simp [shiftDown, hx, ha1, ha2], fun i => ?_⟩
    rw [hget2 i]
    rcases eq_or_ne i j with rfl | hfirst
    · rw [if_neg (by omega), if_pos (by omega), hget1, if_pos rfl, hx]
    · by_cases hin : j + 1 ≤ i ∧ i < j + 1 + r
      · rw [if_pos hin, if_pos (by omega), hget1, if_neg (by omega)]
      · rw [if_neg hin, if_neg (by omega), hget1, if_neg hfirst]

theorem exists_removeAt (a : CArray α n) (l1 : List α)
    (hlen : (l1 ++ x :: l2).length ≤ n) (hfront : a.front (l1 ++ x :: l2).length = l1 ++ x :: l2) :
    ∃ a', shiftDown l2.length l1.length a = some a' ∧ a'.front (l1 ++ l2).length = l1 ++ l2 := by
  rw [length_append, length_cons] at hlen hfront
  rcases shiftDown_spec l2.length l1.length a (by omega) with ⟨a', hshift, hget⟩
  refine ⟨a', hshift, front_eq rfl (by rw [length_append]; omega) fun j hj => ?_⟩
  rw [length_append] at hj
  have hold : ∀ i, i < l1.length + (l2.length + 1) → a.get i = (l1 ++ x :: l2)[i]? := by
    intro i hi
    rw [← getElem?_front a hi, hfront]
  rw [hget]
  by_cases hlow : j < l1.length
  · rw [if_neg (by omega), hold j (by omega), getElem?_append_left hlow, getElem?_append_left hlow]
  · rw [if_pos (by omega), hold (j + 1) (by omega), getElem?_append_right (by omega),
      getElem?_append_right (by omega), show j + 1 - l1.length = (j - l1.length) + 1 by omega,
      getElem?_cons_succ]

/-! ## The end of the part in use -/

theorem front_set (hset : a.set i v = some a') (hc : c ≤ i) : a'.front c = a.front c := by
  have hi : i < n := by
    by_contra hi
    rw [set, dif_neg hi] at hset
    cases hset
  rcases exists_set a hi v with ⟨a1, ha1, hget⟩
  obtain rfl : a1 = a' := some.inj (ha1.symm.trans hset)
  apply front_eq (length_front a (hc.trans hi.le)) (hc.trans hi.le)
  intro j hj
  rw [hget, if_neg (by omega), getElem?_front a hj]

theorem exists_push (a : CArray α n) (h : c < n) (v : α) :
    ∃ a', a.set c v = some a' ∧ a'.front (c + 1) = a.front c ++ [v] := by
  rcases exists_insertAt a c le_rfl h v with ⟨a1, a2, hshift, hset, hfront⟩
  rw [Nat.sub_self, shiftUp, some.injEq] at hshift
  subst hshift
  refine ⟨a2, hset, ?_⟩
  have hlen := length_front a h.le
  rw [hfront, take_of_length_le hlen.le, drop_of_length_le hlen.le]

theorem exists_front_append (a : CArray α n) (h : c ≤ d) : ∃ rest, a.front d = a.front c ++ rest :=
  ⟨(a.front d).drop c, by rw [← take_front a h, take_append_drop]⟩

/-! ## Copying -/

/-- `for (; j < r; j++) dst[j] = src[off + j];` with `r` more elements to copy. -/
def copyFrom {m : Nat} (src : CArray α n) (off : Nat) : Nat → Nat → CArray α m → Option (CArray α m)
  | 0, _, dst => some dst
  | r + 1, j, dst => do
      let x ← src.get (off + j)
      let dst ← dst.set j x
      copyFrom src off r (j + 1) dst

theorem copyFrom_spec (src : CArray α n) (off r j : Nat) (dst : CArray α m)
    (hsrc : off + j + r ≤ n) (hdst : j + r ≤ m) : ∃ dst', copyFrom src off r j dst = some dst' ∧
      ∀ i, dst'.get i = if j ≤ i ∧ i < j + r then src.get (off + i) else dst.get i := by
  induction r generalizing j dst with
  | zero =>
    refine ⟨dst, rfl, fun i => ?_⟩
    rw [if_neg (by omega)]
  | succ r ih =>
    rcases exists_get src (i := off + j) (by omega) with ⟨x, hx⟩
    rcases exists_set dst (i := j) (by omega) x with ⟨dst1, hdst1, hget1⟩
    rcases ih (j + 1) dst1 (by omega) (by omega) with ⟨dst2, hdst2, hget2⟩
    refine ⟨dst2, by simp [copyFrom, hx, hdst1, hdst2], fun i => ?_⟩
    rw [hget2 i, hget1 i]
    rcases eq_or_ne i j with rfl | hij
    · rw [if_neg (by omega), if_pos rfl, if_pos (by omega), hx]
    · by_cases hin : j + 1 ≤ i ∧ i < j + 1 + r
      · rw [if_pos hin, if_pos (by omega)]
      · rw [if_neg hin, if_neg hij, if_neg (by omega)]

theorem exists_copy (src : CArray α n) (off r : Nat) (dst : CArray α m) (hsrc : off + r ≤ n)
    (hdst : r ≤ m) :
    ∃ dst', copyFrom src off r 0 dst = some dst' ∧
      dst'.front r = (src.front (off + r)).drop off := by
  rcases copyFrom_spec src off r 0 dst (by omega) (by omega) with ⟨dst', hcopy, hget⟩
  refine ⟨dst', hcopy, front_eq ?_ hdst ?_⟩
  · rw [length_drop, length_front src hsrc]
    omega
  · intro j hj
    rw [hget, if_pos (by omega), getElem?_drop, getElem?_front src (by omega)]

/-! ## Storing a block -/

/-- `memcpy(a, l, |l|)` -/
def store (a : CArray α n) (l : List α) : Option (CArray α n) :=
  if l.length ≤ n then some ⟨fun i => (l[i.val]?).getD (a.slot i)⟩ else none

theorem exists_store (a : CArray α n) (hl : l.length ≤ n) :
    ∃ a', a.store l = some a' ∧ ∀ j, j < l.length → a'.get j = l[j]? := by
  refine ⟨_, if_pos hl, fun j hj => ?_⟩
  have hjn : j < n := by omega
  simp [get, hjn, hj]

/-! ## Parts of a front -/

theorem mem_take_front (hpos : pos ≤ c) (hc : c ≤ n)
    (hx : x ∈ (a.front c).take pos) : ∃ j, j < pos ∧ a.get j = some x := by
  rw [take_front a hpos] at hx
  rcases mem_iff_getElem?.1 hx with ⟨j, hj⟩
  have hlt : j < pos := by
    by_contra hge
    rw [getElem?_eq_none (by rw [length_front a (by omega)]; omega)] at hj
    cases hj
  rw [getElem?_front a hlt] at hj
  exact ⟨j, hlt, hj⟩

theorem mem_drop_front (hc : c ≤ n) (hx : x ∈ (a.front c).drop pos) :
    ∃ j, pos ≤ j ∧ j < c ∧ a.get j = some x := by
  rcases mem_iff_getElem?.1 hx with ⟨j, hj⟩
  rw [getElem?_drop] at hj
  have hlt : pos + j < c := by
    by_contra hge
    rw [getElem?_eq_none (by rw [length_front a hc]; omega)] at hj
    cases hj
  rw [getElem?_front a hlt] at hj
  exact ⟨pos + j, by omega, hlt, hj⟩

theorem perm_insert (l : List α) (pos : Nat) (key : α) :
    (l.take pos ++ key :: l.drop pos).Perm (key :: l) := by
  calc
    Perm _ (key :: (l.take pos ++ l.drop pos)) := perm_middle
    Perm _ (key :: l) := by rw [take_append_drop]

/-! ## Searching an element -/

/-- `for (; i < count; i++) if (a[i] == key) break;` with `r = count - i`: the index, if the loop
does not run to its end. -/
def indexOf [DecidableEq α] (key : α) (a : CArray α n) : Nat → Nat → Option (Option Nat)
  | 0, _ => some none
  | r + 1, i => do
      let x ← a.get i
      if x = key then some (some i) else indexOf key a r (i + 1)

theorem indexOf_spec [DecidableEq α] (key : α) (a : CArray α n) (l1 : List α)
    (hlen : (l1 ++ l2).length ≤ n) (hfront : a.front (l1 ++ l2).length = l1 ++ l2) :
    (key ∉ l2 ∧ indexOf key a l2.length l1.length = some none) ∨
      ∃ before after, l2 = before ++ key :: after ∧ key ∉ before ∧
        indexOf key a l2.length l1.length = some (some (l1.length + before.length)) := by
  induction l2 generalizing l1 with
  | nil => exact .inl ⟨by simp, rfl⟩
  | cons x l2 ih =>
    have hx : a.get l1.length = some x := by
      rw [← getElem?_front a (c := (l1 ++ x :: l2).length) (by simp), hfront]
      simp
    have hnext : l1 ++ x :: l2 = l1 ++ [x] ++ l2 := by simp
    rcases eq_or_ne x key with rfl | hkey
    · exact .inr ⟨[], l2, rfl, by simp, by simp [indexOf, hx]⟩
    · rw [hnext] at hlen hfront
      have hind : indexOf key a (x :: l2).length l1.length =
        indexOf key a l2.length (l1 ++ [x]).length := by
        simp [indexOf, hx, hkey]
      rw [hind]
      rcases ih _ hlen hfront with ⟨hnot, hnone⟩ | ⟨before, after, rfl, hnot, hsome⟩
      · exact .inl ⟨by simpa [Ne.symm hkey] using hnot, hnone⟩
      · refine .inr ⟨x :: before, after, rfl, by simpa [Ne.symm hkey] using hnot, ?_⟩
        rw [hsome, length_append, length_singleton, length_cons]
        congr 2
        omega

section Order

variable [LinearOrder α]

/-- `while (i >= 0 && key < a[i]) i--;` from `i = k - 1`; the result is `i + 1`. -/
def scanDown (key : α) (a : CArray α n) : Nat → Option Nat
  | 0 => some 0
  | k + 1 => do
      let x ← a.get k
      if key < x then scanDown key a k else some (k + 1)

theorem scanDown_spec (key : α) (a : CArray α n) (k : Nat) (h : k ≤ n) :
    ∃ pos, scanDown key a k = some pos ∧ pos ≤ k ∧
      (∀ j x, pos ≤ j → j < k → a.get j = some x → key < x) ∧
      ∀ x, 0 < pos → a.get (pos - 1) = some x → x ≤ key := by
  induction k with
  | zero =>
    exact ⟨0, rfl, le_rfl, fun j x _ hj => absurd hj (by omega), fun x h0 => absurd h0 (by omega)⟩
  | succ k ih =>
    rcases exists_get a (i := k) (by omega) with ⟨x, hx⟩
    by_cases hlt : key < x
    · rcases ih (by omega) with ⟨pos, hpos, hle, hhigh, hlow⟩
      refine ⟨pos, by simp [scanDown, hx, hlt, hpos], by omega, ?_, hlow⟩
      intro j y hj hjk hy
      rcases eq_or_ne j k with rfl | hjk'
      · rw [hx] at hy
        cases hy
        exact hlt
      · exact hhigh j y hj (by omega) hy
    · refine ⟨k + 1, by simp [scanDown, hx, hlt], le_rfl,
        fun j y hj hjk => absurd hjk (by omega), ?_⟩
      intro y _ hy
      rw [Nat.add_sub_cancel, hx] at hy
      cases hy
      exact not_lt.1 hlt

/-- `while (i >= 0 && key < a[i]) { a[i+1] = a[i]; i--; }` from `i = k - 1`; the result has
`i + 1`. -/
def shiftWhile (key : α) : Nat → CArray α n → Option (CArray α n × Nat)
  | 0, a => some (a, 0)
  | k + 1, a => do
      let x ← a.get k
      if key < x then do
        let a ← a.set (k + 1) x
        shiftWhile key k a
      else some (a, k + 1)

variable {a : CArray α n} {c : Nat}

theorem shiftWhile_le {key : α} {k : Nat} (h : shiftWhile key k a = some (a', pos)) : pos ≤ k := by
  induction k generalizing a with
  | zero =>
    cases h
    exact le_rfl
  | succ k ih =>
    simp only [shiftWhile, bind_eq_bind, bind_eq_some_iff] at h
    rcases h with ⟨x, -, h⟩
    split_ifs at h with hlt
    · rcases bind_eq_some_iff.1 h with ⟨a1, -, h⟩
      exact (ih h).trans (Nat.le_succ k)
    · cases h
      exact le_rfl

/-- The loop is a scan and a move of everything behind the place found. -/
theorem shiftWhile_spec (key : α) (k : Nat) (a : CArray α n) (h : k < n) :
    ∃ pos a', scanDown key a k = some pos ∧ shiftUp a pos (k - pos) = some a' ∧
      shiftWhile key k a = some (a', pos) := by
  have hscan : ∀ (k : Nat) (a a' : CArray α n), (∀ j, j < k → a'.get j = a.get j) →
      scanDown key a' k = scanDown key a k := by
    intro k a a' hget
    induction k with
    | zero => rfl
    | succ k ih =>
      simp only [scanDown, hget k (Nat.lt_succ_self k), ih fun j hj => hget j (by omega)]
  induction k generalizing a with
  | zero => exact ⟨0, a, rfl, rfl, rfl⟩
  | succ k ih =>
    rcases exists_get a (i := k) (by omega) with ⟨x, hx⟩
    by_cases hlt : key < x
    · rcases exists_set a (i := k + 1) (by omega) x with ⟨a1, ha1, hget1⟩
      rcases ih a1 (by omega) with ⟨pos, a', hpos, hshift, hwhile⟩
      have hsame : scanDown key a1 k = scanDown key a k := by
        apply hscan
        intro j hj
        rw [hget1, if_neg (by omega)]
      rw [hsame] at hpos
      rcases scanDown_spec key a k (by omega) with ⟨pos', hpos', hle, -⟩
      rw [hpos] at hpos'
      cases hpos'
      refine ⟨pos, a', by simp [scanDown, hx, hlt, hpos], ?_, ?_⟩
      · have hk : k + 1 - pos = (k - pos) + 1 := by omega
        have hidx : pos + (k - pos) = k := by omega
        rw [hk]
        simp [shiftUp, hidx, hx, ha1, hshift]
      · simp [shiftWhile, hx, hlt, ha1, hwhile]
    · refine ⟨k + 1, a, by simp [scanDown, hx, hlt], ?_, by simp [shiftWhile, hx, hlt]⟩
      rw [Nat.sub_self]
      rfl

/-- `while (i < count && key > a[i]) i++;` with `r = count - i`. -/
def scanUp (key : α) (a : CArray α n) : Nat → Nat → Option Nat
  | 0, i => some i
  | r + 1, i => do
      let x ← a.get i
      if x < key then scanUp key a r (i + 1) else some i

theorem scanUp_spec (key : α) (a : CArray α n) (r i : Nat) (h : i + r ≤ n) :
    ∃ pos, scanUp key a r i = some pos ∧ i ≤ pos ∧ pos ≤ i + r ∧
      (∀ j x, i ≤ j → j < pos → a.get j = some x → x < key) ∧
      ∀ x, pos < i + r → a.get pos = some x → key ≤ x := by
  induction r generalizing i with
  | zero =>
    exact ⟨i, rfl, le_rfl, le_rfl, fun j x hj hj' => absurd hj' (by omega),
      fun x hlt => absurd hlt (by omega)⟩
  | succ r ih =>
    rcases exists_get a (i := i) (by omega) with ⟨x, hx⟩
    by_cases hlt : x < key
    · rcases ih (i + 1) (by omega) with ⟨pos, hpos, hle, hle', hlow, hhigh⟩
      refine ⟨pos, by simp [scanUp, hx, hlt, hpos], by omega, by omega, ?_, ?_⟩
      · intro j y hj hjp hy
        rcases eq_or_ne j i with rfl | hji
        · rw [hx] at hy
          cases hy
          exact hlt
        · exact hlow j y (by omega) hjp hy
      · intro y hlt' hy
        exact hhigh y (by omega) hy
    · refine ⟨i, by simp [scanUp, hx, hlt], le_rfl, by omega,
        fun j y hj hj' => absurd hj' (by omega), ?_⟩
      intro y _ hy
      rw [hx] at hy
      cases hy
      exact not_lt.1 hlt

/-! ### The loops on a sorted front -/

theorem get_le_get {j : Nat} {y : α} (hsorted : (a.front c).Pairwise (· ≤ ·))
    (hij : i < j) (hj : j < c) (hx : a.get i = some x) (hy : a.get j = some y) : x ≤ y := by
  rw [← getElem?_front a (show i < c by omega)] at hx
  rw [← getElem?_front a hj] at hy
  rcases List.getElem?_eq_some_iff.1 hx with ⟨hi', rfl⟩
  rcases List.getElem?_eq_some_iff.1 hy with ⟨hj', rfl⟩
  exact List.pairwise_iff_getElem.1 hsorted i j hi' hj' hij

theorem scanDown_front (key : α) (hc : c ≤ n) (hsorted : (a.front c).Pairwise (· ≤ ·)) :
    ∃ pos, scanDown key a c = some pos ∧ pos ≤ c ∧ (∀ x ∈ (a.front c).take pos, x ≤ key) ∧
      ∀ x ∈ (a.front c).drop pos, key < x := by
  rcases scanDown_spec key a c hc with ⟨pos, hscan, hpos, hhigh, hlow⟩
  refine ⟨pos, hscan, hpos, ?_, ?_⟩
  · intro x hx
    rcases mem_take_front hpos hc hx with ⟨j, hj, hget⟩
    rcases exists_get a (i := pos - 1) (by omega) with ⟨y, hy⟩
    have hyk : y ≤ key := hlow y (by omega) hy
    by_cases hlast : j = pos - 1
    · rw [hlast, hy] at hget
      cases hget
      exact hyk
    · exact (get_le_get hsorted (by omega) (by omega) hget hy).trans hyk
  · intro x hx
    rcases mem_drop_front hc hx with ⟨j, hj, hjc, hget⟩
    exact hhigh j x hj hjc hget

theorem scanUp_front (key : α) (hc : c ≤ n) (hsorted : (a.front c).Pairwise (· ≤ ·)) :
    ∃ pos, scanUp key a c 0 = some pos ∧ pos ≤ c ∧ (∀ x ∈ (a.front c).take pos, x < key) ∧
      ∀ x ∈ (a.front c).drop pos, key ≤ x := by
  rcases scanUp_spec key a c 0 (by omega) with ⟨pos, hscan, -, hpos, hlow, hhigh⟩
  rw [Nat.zero_add] at hpos hhigh
  refine ⟨pos, hscan, hpos, ?_, ?_⟩
  · intro x hx
    rcases mem_take_front hpos hc hx with ⟨j, hj, hget⟩
    exact hlow j x (Nat.zero_le j) hj hget
  · intro x hx
    rcases mem_drop_front hc hx with ⟨j, hj, hjc, hget⟩
    rcases exists_get a (i := pos) (by omega) with ⟨y, hy⟩
    have hky : key ≤ y := hhigh y (by omega) hy
    by_cases hfirst : j = pos
    · rw [hfirst, hy] at hget
      cases hget
      exact hky
    · exact hky.trans (get_le_get hsorted (by omega) hjc hy hget)

theorem exists_insertSorted (key : α) (hc : c < n) (hsorted : (a.front c).Pairwise (· ≤ ·)) :
    ∃ a1 pos a2, shiftWhile key c a = some (a1, pos) ∧ a1.set pos key = some a2 ∧ pos ≤ c ∧
      a2.front (c + 1) = (a.front c).take pos ++ key :: (a.front c).drop pos ∧
      (∀ x ∈ (a.front c).take pos, x ≤ key) ∧ ∀ x ∈ (a.front c).drop pos, key < x := by
  rcases shiftWhile_spec key c a hc with ⟨pos, a1, hscan, hshift, hwhile⟩
  rcases scanDown_front key hc.le hsorted with ⟨pos', hscan', hpos, hlow, hhigh⟩
  rw [hscan] at hscan'
  cases hscan'
  rcases exists_insertAt a pos hpos hc key with ⟨a1', a2, hshift', hset, hfront⟩
  rw [hshift] at hshift'
  cases hshift'
  exact ⟨a1, pos, a2, hwhile, hset, hpos, hfront, hlow, hhigh⟩

theorem sorted_insert {key : α} (hsorted : l.Pairwise (· ≤ ·))
    (hlow : ∀ x ∈ l.take pos, x ≤ key) (hhigh : ∀ x ∈ l.drop pos, key ≤ x) :
    (l.take pos ++ key :: l.drop pos).Pairwise (· ≤ ·) := by
  rw [← take_append_drop pos l, pairwise_append] at hsorted
  rcases hsorted with ⟨htake, hdrop, hboth⟩
  refine pairwise_append.2 ⟨htake, pairwise_cons.2 ⟨hhigh, hdrop⟩, ?_⟩
  intro x hx y hy
  rcases mem_cons.1 hy with rfl | hy
  · exact hlow x hx
  · exact hboth x hx y hy

end Order

end CArray
end SystemsLab
