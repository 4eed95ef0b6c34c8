import Mathlib.Data.List.TakeWhile
import Mathlib.Data.UInt

/-!
# NUL-terminated strings and the buffers that hold them

A C string is the list of its bytes before the terminator, none of which is NUL; `CBuf n` is a
`char[n]` with a string in it.
-/

namespace SystemsLab

open List

def literal (text : String) : List UInt8 :=
  text.toList.map fun c => UInt8.ofNat c.toNat

/-- The bytes of a C string, without its terminator. -/
structure CString where
  bytes : List UInt8
  noNul : 0 ∉ bytes
  deriving DecidableEq

namespace CString

def empty : CString := ⟨[], by simp⟩

/-- The string at the start of some bytes. -/
def ofBytes (bytes : List UInt8) : CString :=
  ⟨bytes.takeWhile (· ≠ 0), fun h => by simpa using mem_takeWhile_imp h⟩

def ofLiteral (text : String) : CString := ofBytes (literal text)

/-- The text of two strings printed one after the other. -/
instance : Append CString where
  append a b := ⟨a.bytes ++ b.bytes, by simp [a.noNul, b.noNul]⟩

@[simp] theorem bytes_append (a b : CString) : (a ++ b).bytes = a.bytes ++ b.bytes := rfl

theorem ofBytes_bytes (s : CString) : ofBytes s.bytes = s := by
  rcases s with ⟨bytes, hnul⟩
  have htake : bytes.takeWhile (· ≠ 0) = bytes := by
    rw [takeWhile_eq_self_iff]
    intro c hc
    exact decide_eq_true fun heq => hnul (heq ▸ hc)
  simp only [ofBytes, htake]

theorem ofBytes_append_nul (bytes rest : List UInt8) :
    ofBytes (bytes ++ 0 :: rest) = ofBytes bytes := by
  have htake : (bytes ++ 0 :: rest).takeWhile (· ≠ 0) = bytes.takeWhile (· ≠ 0) := by
    induction bytes with
    | nil => rfl
    | cons c bytes ih => rw [cons_append, takeWhile_cons, takeWhile_cons, ih]
  simp only [ofBytes, htake]

theorem ofBytes_terminated (s : CString) (rest : List UInt8) :
    ofBytes (s.bytes ++ 0 :: rest) = s := by
  rw [ofBytes_append_nul, ofBytes_bytes]

/-- `strstr(a, b) != NULL` -/
def strstr (a b : CString) : Bool := b.bytes <:+: a.bytes

/-- `s[strcspn(s, reject)] = '\0'` -/
def cut (s : CString) (reject : UInt8 → Bool) : CString :=
  ⟨s.bytes.takeWhile fun c => !reject c, fun h => s.noNul ((List.takeWhile_prefix _).subset h)⟩

/-- `strncmp(a, b, n) == 0`: no difference within `n` bytes, the terminator counting as one. -/
def strncmpEq (a b : CString) (n : Nat) : Bool :=
  a.bytes.take n = b.bytes.take n

end CString

/-- A `char[n]` that holds a string and its terminator. -/
structure CBuf (n : Nat) where
  str : CString
  fits : str.bytes.length < n
  deriving DecidableEq

namespace CBuf

variable {n : Nat}

theorem eq_of_str_eq {a b : CBuf n} (h : a.str = b.str) : a = b := by
  rcases b with ⟨t, hb⟩
  cases h
  rfl

def strcpy (s : CString) : Option (CBuf n) :=
  if h : s.bytes.length < n then some ⟨s, h⟩ else none

@[simp] theorem strcpy_str (b : CBuf n) : strcpy b.str = some b := dif_pos b.fits

variable [NeZero n]

/-- `strncpy(buf, s, n - 1); buf[n - 1] = '\0';` -/
def copy (s : CString) : CBuf n where
  str := ⟨s.bytes.take (n - 1), fun h => s.noNul (mem_of_mem_take h)⟩
  fits := by
    have hpos : 0 < n := Nat.pos_of_neZero n
    have hle : (s.bytes.take (n - 1)).length ≤ n - 1 := length_take_le _ _
    exact Nat.lt_of_le_of_lt hle (Nat.sub_lt hpos Nat.one_pos)

theorem str_copy {s : CString} (h : s.bytes.length < n) : (copy s : CBuf n).str = s := by
  rcases s with ⟨bytes, hnul⟩
  have hle : bytes.length ≤ n - 1 := Nat.le_sub_one_of_lt h
  simp [copy, take_of_length_le hle]

/-- `buf[0] = '\0'` -/
def empty : CBuf n := copy CString.empty

@[simp] theorem copy_str (b : CBuf n) : copy b.str = b := eq_of_str_eq (str_copy b.fits)

end CBuf

end SystemsLab
