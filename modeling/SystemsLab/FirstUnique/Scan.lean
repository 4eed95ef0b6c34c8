import SystemsLab.CLib.CArray
import SystemsLab.CLib.Scanf
import SystemsLab.Data.CallSequence

/-!
# `first_non_repeating_char.c`

The second loop of `main` stops at the first position that is not below the code of its character,
so a character is only found if it and all characters before it are above their positions.
-/

namespace SystemsLab.FirstUnique

open CallSequence List Scanf

/-- `freq[c]++`; from 128 on a `char` is negative and not an index. -/
def bump (freq : CArray Nat 256) (c : UInt8) : Option (CArray Nat 256) :=
  if c < 128 then (freq.get c.toNat).bind fun k => freq.set c.toNat (k + 1) else none

/-- `for (i = 0; i < str[i]; i++)` from `i` on; the terminator ends it. -/
def scan (freq : CArray Nat 256) : Nat → List UInt8 → Option (Option UInt8)
  | _, [] => some none
  | i, c :: str =>
    if i < c.toNat then do
      let k ← freq.get c.toNat
      if k = 1 then some (some c) else scan freq (i + 1) str
    else some none

def output (found : Option UInt8) : List UInt8 :=
  found.elim (literal "No Non repeating character") fun c => [c]

/-- What `main` prints after its prompt; none if the line does not fit `str` or leaves it without a
value. -/
def main (input : List UInt8) : Option (List UInt8) := do
  let scanned ← scanf [.run (· ≠ 10) none 50, .char 115] input
  let str ← scanned.args.head?
  let freq ← runCalls bump (.fill 0) str.bytes
  let found ← scan freq 0 str.bytes
  some (output found)

/-- Every position up to that of the first element with `p` is below the code of its character. -/
def Reached (p : UInt8 → Bool) (i : Nat) (str : List UInt8) : Prop :=
  ∀ k ∈ str.findIdx? p, ∀ j ≤ k, ∀ c ∈ str[j]?, i + j < c.toNat

variable {str : List UInt8} {freq : CArray Nat 256} {p : UInt8 → Bool} {i : Nat} {c : UInt8}

theorem runCalls_bump (h : ∀ c ∈ str, c < 128) : ∃ freq, runCalls bump (.fill 0) str = some freq ∧
      ∀ c, freq.get c.toNat = some (str.count c) := by
  induction str using List.reverseRecOn with
  | nil => exact ⟨.fill 0, rfl, fun c => dif_pos c.toNat_lt⟩
  | append_singleton str c ih =>
    rcases forall_mem_append.1 h with ⟨hstr, hc⟩
    rcases ih hstr with ⟨freq, hrun, hfreq⟩
    rcases CArray.exists_set freq c.toNat_lt (str.count c + 1) with ⟨freq', hset, hget⟩
    refine ⟨freq', ?_, fun d => ?_⟩
    · simp [runCalls_append, hrun, runCalls, bump, hc, hfreq, hset]
    · rw [hget, count_append, count_singleton]
      by_cases hd : d = c
      · simp [hd]
      · simp [UInt8.toNat_inj, hd, hfreq, Ne.symm hd]

theorem reached_cons (hc : p c = false) (hi : i < c.toNat) :
    Reached p i (c :: str) ↔ Reached p (i + 1) str := by
  rw [Reached, findIdx?_cons, hc]
  constructor
  · intro h k hk j hj d hd
    have hlt := h (k + 1) (by rw [hk]; rfl) (j + 1) (Nat.succ_le_succ hj) d hd
    omega
  · intro h k' hk' j hj d hd
    rcases Option.map_eq_some_iff.1 hk' with ⟨k, hk, rfl⟩
    rcases j with - | j
    · cases hd
      exact hi
    · have hlt := h k hk j (Nat.le_of_succ_le_succ hj) d hd
      omega

theorem scan_spec (hfreq : ∀ c ∈ str, ∃ k, freq.get c.toNat = some k ∧ (p c ↔ k = 1)) :
    ∃ found, scan freq i str = some found ∧ (found = str.find? p ↔ Reached p i str) := by
  induction str generalizing i with
  | nil => exact ⟨none, rfl, by simp [Reached]⟩
  | cons c str ih =>
    rcases forall_mem_cons.1 hfreq with ⟨⟨k, hk, hp⟩, hrest⟩
    by_cases hi : i < c.toNat
    · by_cases h1 : k = 1
      · refine ⟨some c, by simp [scan, hi, hk, h1], ?_⟩
        simp [Reached, findIdx?_cons, hp.2 h1, hi]
      · have hpc : p c = false := by simpa [h1] using hp
        rcases ih (i := i + 1) hrest with ⟨found, hfound, hiff⟩
        refine ⟨found, by simp [scan, hi, hk, h1, hfound], ?_⟩
        rw [find?_cons_of_neg (by simp [hpc]), hiff, reached_cons hpc hi]
    · -- the loop ends here, so nothing may be left to find
      refine ⟨none, by simp [scan, hi], fun h k hk => ?_, fun h => ?_⟩
      · rw [findIdx?_eq_none_iff.2 (by simpa using h.symm)] at hk
        cases hk
      · rw [eq_comm, find?_eq_none]
        by_contra hsome
        cases hk : (c :: str).findIdx? p with
        | none => exact hsome (by simpa using findIdx?_eq_none_iff.1 hk)
        | some k => exact hi (h k hk 0 (Nat.zero_le k) c rfl)

theorem output_inj {found found' : Option UInt8} (h : output found = output found') :
    found = found' := by
  cases found <;> cases found' <;> simp_all [output, literal]

/-- An empty line leaves `str` as it was. -/
theorem main_empty {rest : List UInt8} (hend : Stops (· ≠ 10) rest) : main rest = none := by
  cases rest with
  | nil => rfl
  | cons d rest =>
    obtain rfl : d = 10 := by simpa using hend d rfl
    simp [main, scanf, field, assign]

/-- The first character that occurs once is printed, or the message if there is none, exactly where
the line is not empty, and that character and all before it are above their positions. -/
theorem prints_first_unique_iff (line : CString) (hascii : ∀ c ∈ line.bytes, c < 128 ∧ c ≠ 10)
    (hlen : line.bytes.length ≤ 49) (rest : List UInt8) (hend : Stops (· ≠ 10) rest) :
    main (line.bytes ++ rest) = some (output (line.bytes.find? fun c => line.bytes.count c = 1)) ↔
      line.bytes ≠ [] ∧ Reached (fun c => line.bytes.count c = 1) 0 line.bytes := by
  by_cases hne : line.bytes = []
  · simp [hne, main_empty hend]
  have hread : ∃ r, scanf [.run (· ≠ 10) none 50, .char 115] (line.bytes ++ rest) =
    some ⟨[line], r⟩ := by
    rw [scanf_run hne (fun c hc => decide_eq_true (hascii c hc).2) (by simp)
      (Nat.lt_succ_of_le hlen) hend]
    cases rest with
    | nil => exact ⟨[], rfl⟩
    | cons d rest =>
      have hd : d = 10 := by simpa using hend d rfl
      exact ⟨d :: rest, by rw [hd]; rfl⟩
  rcases hread with ⟨r, hr⟩
  rcases runCalls_bump fun c hc => (hascii c hc).1 with ⟨freq, hrun, hfreq⟩
  have hcount : ∀ c ∈ line.bytes, ∃ k, freq.get c.toNat = some k ∧
    (decide (line.bytes.count c = 1) ↔ k = 1) :=
    fun c _ => ⟨_, hfreq c, decide_eq_true_iff⟩
  rcases scan_spec (i := 0) hcount with ⟨found, hfound, hiff⟩
  have hmain : main (line.bytes ++ rest) = some (output found) := by
    rw [main, hr]
    simp [hrun, hfound]
  rw [hmain, ← hiff, Option.some.injEq, and_iff_right hne]
  exact ⟨output_inj, congrArg output⟩

/-- `"aab\n"` -/
theorem prints_first_unique_demo : main ([97, 97, 98] ++ [10]) = some [98] :=
  (prints_first_unique_iff ⟨[97, 97, 98], by decide⟩ (by decide +kernel) (by decide) [10]
    (stops_cons rfl)).2
    ⟨by decide, by unfold Reached; decide +kernel⟩

/-- A space behind 32 times `a`: it occurs once, and the loop stops in front of it. -/
theorem unique_space_missed :
    (replicate 32 97 ++ [32]).find? (fun c => (replicate 32 97 ++ [32]).count c = 1) = some 32 ∧
    main (replicate 32 97 ++ [32] ++ [10]) = some (literal "No Non repeating character") := by
  decide +kernel

end SystemsLab.FirstUnique
