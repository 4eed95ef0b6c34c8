import SystemsLab.CLib.CArray
import SystemsLab.CLib.CString
import SystemsLab.Data.CallSequence

/-!
# `bloom-filter.c`

A word sets two elements of an array of 20, at the remainders of two sums of its characters.  `char`
is signed, so a sum can be negative, and then so is its remainder.  Arithmetic of type `int` that
overflows and an access outside the array are `none`; the messages are left out.
-/

namespace SystemsLab.BloomFilter

open CallSequence List Option

def BLOOM_SIZE : Nat := 20

/-- The range of `int`. -/
def Fits (x : Int) : Prop := -2 ^ 31 ≤ x ∧ x < 2 ^ 31

instance : DecidablePred Fits := fun x => inferInstanceAs (Decidable (-2 ^ 31 ≤ x ∧ x < 2 ^ 31))

def int (x : Int) : Option Int := if Fits x then some x else none

/-- The loop of a hash function: `sum += term(i, word[i])` for the characters from `i` on. -/
def sumLoop (term : Int → Int → Option Int) : List UInt8 → Int → Int → Option Int
  | [], _, sum => some sum
  | b :: rest, i, sum => do
    let t ← term i b.toInt8.toInt
    let sum ← int (sum + t)
    let i ← int (i + 1)
    sumLoop term rest i sum

def hashFunone (word : CString) : Option Int :=
  (sumLoop (fun _ c => some c) word.bytes 0 0).map fun sum => sum.tmod BLOOM_SIZE

def hashFuntwo (word : CString) : Option Int :=
  (sumLoop (fun i c => (int (i + 1)).bind fun k => int (k * c)) word.bytes 0 0).map fun sum =>
    sum.tmod BLOOM_SIZE

abbrev Filter := CArray Int BLOOM_SIZE

/-- An `int` as an index. -/
def index (i : Int) : Option Nat := if 0 ≤ i then some i.toNat else none

def insert (filter : Filter) (word : CString) : Option Filter := do
  let firstIndex ← hashFunone word
  let secondIndex ← hashFuntwo word
  let first ← index firstIndex
  let filter ← filter.set first 1
  let second ← index secondIndex
  filter.set second 1

def search (filter : Filter) (word : CString) : Option Int := do
  let firstIndex ← hashFunone word
  let secondIndex ← hashFuntwo word
  let first ← index firstIndex
  let x ← filter.get first
  if x = 1 then
    let second ← index secondIndex
    let y ← filter.get second
    if y = 1 then some 1 else some 0
  else some 0

def run (words : List CString) : Option Filter := runCalls insert (CArray.fill 0) words

/-! ## Indices -/

variable {word : CString} {filter filter' : Filter} {i : Int}

/-- Both hash functions give an index of the array. -/
def HasIndices (word : CString) : Prop :=
  ∃ first second, hashFunone word = some first ∧ hashFuntwo word = some second ∧
    (0 ≤ first ∧ first < BLOOM_SIZE) ∧ 0 ≤ second ∧ second < BLOOM_SIZE

/-- The characters of the word as numbers, each with the weight of its position. -/
def terms (weight : Nat → Int) (bytes : List UInt8) : List Int :=
  bytes.mapIdx fun i b => weight i * b.toInt8.toInt

/-- No sum of the loop overflows, and the remainder of the last one is not negative. -/
structure Summable (terms : List Int) : Prop where
  fits : ∀ t ∈ terms, Fits t
  sums : ∀ p, p <+: terms → Fits p.sum
  index : 0 ≤ terms.sum ∨ (BLOOM_SIZE : Int) ∣ terms.sum

/-- The condition on the characters of a word: their sum and their weighted sum are within `int` all
the time, and at the end not negative or multiples of `BLOOM_SIZE`. -/
structure Hashable (word : CString) : Prop where
  length : word.bytes.length < 2 ^ 31
  one : Summable (terms (fun _ => 1) word.bytes)
  two : Summable (terms (fun i => i + 1) word.bytes)

theorem index_eq (h : 0 ≤ i) : index i = some i.toNat := if_pos h

theorem int_eq_some_iff {x y : Int} : int x = some y ↔ Fits x ∧ x = y := by
  simp [int]

theorem terms_cons (weight : Nat → Int) (b : UInt8) (bytes : List UInt8) :
    terms weight (b :: bytes) = weight 0 * b.toInt8.toInt ::
      terms (fun i => weight (i + 1)) bytes :=
  mapIdx_cons

/-- The loop from the character `k` on, with the sum of the characters before. -/
theorem sumLoop_eq_some_iff {term : Int → Int → Option Int} {weight : Nat → Int}
    (hterm : ∀ (i : Nat) (b : UInt8), (i : Int) + 1 < 2 ^ 31 →
      term i b.toInt8.toInt = int (weight i * b.toInt8.toInt))
    (bytes : List UInt8) (k : Nat) (sum total : Int) (hk : (k : Int) < 2 ^ 31) (hsum : Fits sum) :
    sumLoop term bytes k sum = some total ↔
      (k : Int) + bytes.length < 2 ^ 31 ∧ (∀ t ∈ terms (fun i => weight (k + i)) bytes, Fits t) ∧
      (∀ p, p <+: terms (fun i => weight (k + i)) bytes → Fits (sum + p.sum)) ∧
      sum + (terms (fun i => weight (k + i)) bytes).sum = total := by
  induction bytes generalizing k sum with
  | nil =>
    rw [length_nil, Nat.cast_zero, add_zero, and_iff_right hk]
    simp [sumLoop, terms, hsum]
  | cons b bytes ih =>
    have hnext : ∀ i, weight (k + (i + 1)) = weight (k + 1 + i) :=
      fun i => by rw [add_assoc, add_comm 1]
    simp only [terms_cons, hnext, length_cons, forall_mem_cons, sum_cons]
    generalize hts : terms (fun i => weight (k + 1 + i)) bytes = ts
    by_cases hlast : (k : Int) + 1 < 2 ^ 31
    · have hi : int ((k : Int) + 1) = some ((k + 1 : Nat) : Int) :=
        int_eq_some_iff.2 ⟨⟨by omega, hlast⟩, rfl⟩
      rw [sumLoop, hterm k b hlast]
      generalize weight k * b.toInt8.toInt = t
      -- the sums of the rest are those of the whole without the empty one
      have hsums : (∀ p, p <+: t :: ts → Fits (sum + p.sum)) ↔ ∀ p, p <+: ts →
        Fits (sum + t + p.sum) := by
        constructor
        · intro h p hp
          rw [add_assoc]
          exact h _ ((prefix_cons_inj t).2 hp)
        · intro h p hp
          rcases prefix_cons_iff.1 hp with rfl | ⟨q, rfl, hq⟩
          · simpa using hsum
          · rw [sum_cons, ← add_assoc]
            exact h q hq
      rw [hsums, ← add_assoc sum]
      simp only [bind_eq_bind, hi, bind_some, bind_eq_some_iff, int_eq_some_iff]
      constructor
      · rintro ⟨_, ⟨ht, rfl⟩, _, ⟨hst, rfl⟩, hloop⟩
        rw [ih (k + 1) _ hlast hst, hts] at hloop
        exact ⟨by omega, ⟨ht, hloop.2.1⟩, hloop.2.2⟩
      · rintro ⟨hlen, ⟨ht, hfits⟩, hsums, htotal⟩
        have hst : Fits (sum + t) := by simpa using hsums [] nil_prefix
        refine ⟨t, ⟨ht, rfl⟩, sum + t, ⟨hst, rfl⟩, ?_⟩
        rw [ih (k + 1) _ hlast hst, hts]
        exact ⟨by omega, hfits, hsums, htotal⟩
    · have hnone : int ((k : Int) + 1) = none := if_neg fun h => hlast h.2
      refine iff_of_false ?_ (by omega)
      simp [sumLoop, hnone]

theorem tmod_lt (sum : Int) : sum.tmod BLOOM_SIZE < BLOOM_SIZE := Int.tmod_lt_of_pos sum (by decide)

theorem tmod_nonneg_iff (sum : Int) :
    0 ≤ sum.tmod BLOOM_SIZE ↔ 0 ≤ sum ∨ (BLOOM_SIZE : Int) ∣ sum := by
  constructor
  · intro h
    refine or_iff_not_imp_left.2 fun hneg => Int.dvd_of_tmod_eq_zero ?_
    have hpos : 0 ≤ (-sum).tmod BLOOM_SIZE := Int.tmod_nonneg _ (by omega)
    rw [Int.neg_tmod] at hpos
    omega
  · rintro (h | h)
    · exact Int.tmod_nonneg _ h
    · rw [Int.tmod_eq_zero_of_dvd h]

/-- One hash function: the loop and the remainder. -/
theorem hash_iff (term : Int → Int → Option Int) (weight : Nat → Int) (bytes : List UInt8)
    (hterm : ∀ (i : Nat) (b : UInt8), (i : Int) + 1 < 2 ^ 31 →
      term i b.toInt8.toInt = int (weight i * b.toInt8.toInt)) :
    (∃ i, (sumLoop term bytes 0 0).map (fun sum => sum.tmod BLOOM_SIZE) = some i ∧ 0 ≤ i ∧
      i < BLOOM_SIZE) ↔
      bytes.length < 2 ^ 31 ∧ Summable (terms weight bytes) := by
  have hloop := fun total => sumLoop_eq_some_iff hterm bytes 0 0 total (by decide) (by decide)
  simp only [Nat.cast_zero, zero_add] at hloop
  simp only [map_eq_some_iff, hloop]
  constructor
  · rintro ⟨_, ⟨_, ⟨hlen, hfits, hsums, rfl⟩, rfl⟩, hindex, -⟩
    exact ⟨by omega, hfits, hsums, (tmod_nonneg_iff _).1 hindex⟩
  · rintro ⟨hlen, hfits, hsums, hindex⟩
    exact ⟨_, ⟨_, ⟨by omega, hfits, hsums, rfl⟩, rfl⟩, (tmod_nonneg_iff _).2 hindex, tmod_lt _⟩

/-- The hash functions give two indices exactly for the words that meet the condition. -/
theorem hasIndices_iff : HasIndices word ↔ Hashable word := by
  have hone := hash_iff (fun _ c => some c) (fun _ => 1) word.bytes fun i b _ => by
    have hlow := b.toInt8.le_toInt
    have hhigh := b.toInt8.toInt_lt
    exact (int_eq_some_iff.2 ⟨⟨by omega, by omega⟩, one_mul _⟩).symm
  have htwo := hash_iff (fun i c => (int (i + 1)).bind fun k => int (k * c))
    (fun i => i + 1) word.bytes
    fun i b hi => by
      rw [int_eq_some_iff.2 ⟨⟨by omega, hi⟩, rfl⟩, bind_some]
  constructor
  · rintro ⟨first, second, hfirst, hsecond, hin, hin'⟩
    exact ⟨(hone.1 ⟨first, hfirst, hin⟩).1, (hone.1 ⟨first, hfirst, hin⟩).2,
      (htwo.1 ⟨second, hsecond, hin'⟩).2⟩
  · intro h
    rcases hone.2 ⟨h.length, h.one⟩ with ⟨first, hfirst, hin⟩
    rcases htwo.2 ⟨h.length, h.two⟩ with ⟨second, hsecond, hin'⟩
    exact ⟨first, second, hfirst, hsecond, hin, hin'⟩

/-! ## Insertions -/

/-- An insertion of a word with two indices goes through; it sets its two elements and no other. -/
theorem insert_spec (filter : Filter) (h : HasIndices word) :
    ∃ filter', insert filter word = some filter' ∧
    search filter' word = some 1 ∧ ∀ j, filter.get j = some 1 → filter'.get j = some 1 := by
  rcases h with ⟨first, second, hfirst, hsecond, ⟨hpos, hlt⟩, hpos', hlt'⟩
  have hin : first.toNat < BLOOM_SIZE := by omega
  have hin' : second.toNat < BLOOM_SIZE := by omega
  rcases CArray.exists_set filter hin 1 with ⟨filter1, hset1, hget1⟩
  rcases CArray.exists_set filter1 hin' 1 with ⟨filter2, hset2, hget2⟩
  have hkept : ∀ j, filter1.get j = some 1 → filter2.get j = some 1 := by
    intro j hj
    rw [hget2]
    split
    · rfl
    · exact hj
  have hone : filter2.get first.toNat = some 1 := hkept _ (by rw [hget1, if_pos rfl])
  have htwo : filter2.get second.toNat = some 1 := by rw [hget2, if_pos rfl]
  refine ⟨filter2, ?_, ?_, fun j hj => hkept j ?_⟩
  · simp [insert, hfirst, hsecond, index_eq hpos, index_eq hpos', hset1, hset2]
  · simp [search, hfirst, hsecond, index_eq hpos, index_eq hpos', hone, htwo]
  · rw [hget1]
    split
    · rfl
    · exact hj

theorem hasIndices_of_insert (h : insert filter word = some filter') : HasIndices word := by
  simp only [insert, bind_eq_bind, bind_eq_some_iff] at h
  rcases h with ⟨first, hfirst, second, hsecond, i, hi, filter1, -, j, hj, -⟩
  rcases map_eq_some_iff.1 hfirst with ⟨sum, -, rfl⟩
  rcases map_eq_some_iff.1 hsecond with ⟨sum', -, rfl⟩
  refine ⟨_, _, hfirst, hsecond, ⟨?_, tmod_lt sum⟩, ?_, tmod_lt sum'⟩
  · by_contra hneg
    rw [index, if_neg hneg] at hi
    cases hi
  · by_contra hneg
    rw [index, if_neg hneg] at hj
    cases hj

theorem hasIndices_of_runCalls (words : List CString)
    (h : runCalls insert filter words = some filter') :
    ∀ word ∈ words, HasIndices word := by
  induction words generalizing filter with
  | nil => nofun
  | cons word words ih =>
    rcases bind_eq_some_iff.1 h with ⟨filter1, hinsert, hrest⟩
    exact forall_mem_cons.2 ⟨hasIndices_of_insert hinsert, ih hrest⟩

theorem search_mono (hset : ∀ j, filter.get j = some 1 → filter'.get j = some 1)
    (h : search filter word = some 1) : search filter' word = some 1 := by
  simp only [search, bind_eq_bind, bind_eq_some_iff] at h ⊢
  rcases h with ⟨first, hfirst, second, hsecond, i, hi, x, hx, h⟩
  refine ⟨first, hfirst, second, hsecond, i, hi, ?_⟩
  by_cases hx1 : x = 1
  · subst hx1
    refine ⟨1, hset i hx, ?_⟩
    rw [if_pos rfl, bind_eq_some_iff] at h ⊢
    rcases h with ⟨j, hj, h⟩
    refine ⟨j, hj, ?_⟩
    rcases bind_eq_some_iff.1 h with ⟨y, hy, h⟩
    rcases eq_or_ne y 1 with rfl | hy1
    · rw [hset j hy]
      rfl
    · rw [if_neg hy1] at h
      cases h
  · rw [if_neg hx1] at h
    cases h

theorem run_spec (words : List CString) (hwords : ∀ word ∈ words, HasIndices word) :
    ∃ filter, run words = some filter ∧ ∀ word ∈ words, search filter word = some 1 := by
  refine runCalls_guarded (R := fun filter made => ∀ word ∈ made, search filter word =
    some 1) ?_ nofun
    (guarded_true insert _ words)
  intro filter made word hword h _
  rcases insert_spec filter (hwords word hword) with ⟨filter', hinsert, hfound, hset⟩
  refine ⟨filter', hinsert, fun word' hword' => ?_⟩
  rcases mem_append.1 hword' with hold | hnew
  · exact search_mono hset (h word' hold)
  · rwa [mem_singleton.1 hnew]

/-- The insertions go through exactly if the characters of every word meet the condition.  Both hash
functions then give an index of the array for all the words, and `search` returns 1 for them. -/
theorem bloom_filter_finds_inserted (words : List CString) :
    ((∃ filter, run words = some filter) ↔ ∀ word ∈ words, Hashable word) ∧
      ∀ filter, run words = some filter →
        ∀ word ∈ words, HasIndices word ∧ search filter word = some 1 := by
  simp only [← hasIndices_iff]
  refine ⟨⟨fun ⟨filter, hrun⟩ => hasIndices_of_runCalls words hrun, fun hwords => ?_⟩,
    fun filter hrun => ?_⟩
  · rcases run_spec words hwords with ⟨filter, hrun, -⟩
    exact ⟨filter, hrun⟩
  · have hwords := hasIndices_of_runCalls words hrun
    rcases run_spec words hwords with ⟨filter', hrun', hfound⟩
    obtain rfl : filter = filter' := some.inj (hrun.symm.trans hrun')
    exact fun word hword => ⟨hwords word hword, hfound word hword⟩

/-- The word with the one character `'\x80'`, which is -128, has the index -8. -/
theorem negative_index : hashFunone (.ofBytes [128]) = some (-8) ∧ run [.ofBytes [128]] = none := by
  decide +kernel

end SystemsLab.BloomFilter
