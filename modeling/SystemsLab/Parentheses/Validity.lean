import SystemsLab.CLib.CArray
import SystemsLab.CLib.CString
import SystemsLab.Data.Brackets

/-!
# The two versions of `valid_parenthesis.c`

Both keep the open brackets on a stack in an array.  The version of 24-11-2025 has room for the
whole string, but its `isMatching` says yes as soon as one of the two brackets is a square one; the
version of 26-11-2025 compares all three kinds and has room for 100.
-/

namespace SystemsLab.Parentheses

open CallSequence Brackets List

/-- `'('`, `'{'` or `'['` -/
def opens (ch : UInt8) : Bool := ch = 40 || ch = 123 || ch = 91

/-- `')'`, `'}'` or `']'` -/
def closes (ch : UInt8) : Bool := ch = 41 || ch = 125 || ch = 93

/-- The loop of `isValid` from `str[i]` on; `count` is `top + 1`. -/
def scan {n : Nat} (isMatching : UInt8 → UInt8 → Bool) (stack : CArray UInt8 n) (count : Nat) :
    List UInt8 → Option Bool
  | [] => some (count = 0)
  | ch :: str =>
    if opens ch then (stack.set count ch).bind fun stack => scan isMatching stack (count + 1) str
    else if closes ch then
      match count with
      | 0 => some false
      | top + 1 => (stack.get top).bind fun last =>
        if isMatching last ch then scan isMatching stack top str else some false
    else scan isMatching stack count str

namespace November24

def isMatching (opening closing : UInt8) : Bool :=
  opening = 40 && closing = 41 || opening = 123 && closing = 125 || opening = 91 || closing = 93

/-- `stack[n]` is not initialised, and `n` must not be 0. -/
def isValid (str : CString) (stack : CArray UInt8 str.bytes.length) : Option Bool :=
  if str.bytes.length = 0 then none else scan isMatching stack 0 str.bytes

end November24

namespace November26

def isMatching (opening closing : UInt8) : Bool :=
  opening = 40 && closing = 41 || opening = 123 && closing = 125 || opening = 91 && closing = 93

def isValid (str : CString) (stack : CArray UInt8 100) : Option Bool :=
  scan isMatching stack 0 str.bytes

end November26

def brackets (str : List UInt8) : List UInt8 := str.filter fun ch => opens ch || closes ch

/-- `()`, `{}` and `[]` -/
def kinds (o c : UInt8) : Bool := o = 40 && c = 41 || o = 123 && c = 125 || o = 91 && c = 93

/-- Generated by `S → ε | (S)S | {S}S | [S]S`. -/
abbrev IsBalanced (str : CString) : Prop := Balanced kinds (brackets str.bytes)

/-- Every bracket has its counterpart when the kinds are ignored. -/
def IsNested (str : CString) : Prop := Balanced (nests opens) (brackets str.bytes)

/-- `o` and `c` belong together in the string by their depth. -/
def Together (str : CString) (o c : UInt8) : Prop := Paired opens (brackets str.bytes) o c

def stackAfter (isMatching : UInt8 → UInt8 → Bool) (str : List UInt8) : Option (List UInt8) :=
  runCalls (step opens isMatching) [] (brackets str)

variable {n : Nat} {isMatching : UInt8 → UInt8 → Bool} {array : CArray UInt8 n}
  {stack str : List UInt8} {ch : UInt8}

theorem nests_of_kinds (o c : UInt8) (h : kinds o c) : nests opens o c := by
  simp only [kinds, Bool.or_eq_true, Bool.and_eq_true, decide_eq_true_eq] at h
  rcases h with (⟨rfl, rfl⟩ | ⟨rfl, rfl⟩) | ⟨rfl, rfl⟩ <;> decide

/-- What stands in a string are brackets only, so a comparison goes wrong only for the two other
pairs. -/
theorem Together.isMatching_iff {str : CString} {o c : UInt8} (h : Together str o c) :
    (November24.isMatching o c = true ↔ ¬(o = 40 ∧ c = 125) ∧ ¬(o = 123 ∧ c = 41)) ∧
      (November24.isMatching o c = true → (kinds o c = true ↔ (o = 91 ↔ c = 93))) := by
  rcases h with ⟨a, u, b, hstr, -, hoc⟩
  rcases nests_iff.1 hoc with ⟨hopen, hclose⟩
  have hc : c ∈ brackets str.bytes := by simp [hstr]
  have hclose' : closes c = true := by simpa [hclose] using (mem_filter.1 hc).2
  simp only [opens, closes, kinds, Bool.or_eq_true, decide_eq_true_eq]
    at hopen hclose' ⊢
  rcases hopen with (rfl | rfl) | rfl <;> rcases hclose' with (rfl | rfl) | rfl <;> decide

/-- The array holds the stack, whose last element is its top. -/
theorem scan_eq (array : CArray UInt8 n) (stack : List UInt8)
    (hstack : array.front stack.length = stack.reverse)
    (hroom : ∀ p, p <+: str → ∀ s, runCalls (step opens isMatching) stack (brackets p) = some s →
      s.length ≤ n) :
    ∃ valid, scan isMatching array stack.length str = some valid ∧
      (valid = true ↔ runCalls (step opens isMatching) stack (brackets str) = some []) := by
  induction str generalizing array stack with
  | nil => simp [scan, brackets, runCalls]
  | cons ch str ih =>
    have hrest : ∀ s, runCalls (step opens isMatching) stack (brackets [ch]) = some s →
      ∀ p, p <+: str →
        ∀ s', runCalls (step opens isMatching) s (brackets p) = some s' → s'.length ≤ n := by
      intro s hs p hp s' hs'
      refine hroom (ch :: p) (prefix_cons_inj ch |>.2 hp) s' ?_
      rw [← singleton_append, brackets, filter_append, runCalls_append]
      exact Option.bind_eq_some_iff.2 ⟨s, hs, hs'⟩
    cases hopen : opens ch with
    | true =>
      have hpush : runCalls (step opens isMatching) stack (brackets [ch]) = some (ch :: stack) := by
        simp [brackets, hopen, runCalls, step]
      have hlen : stack.length < n := hroom [ch] (prefix_append [ch] str) _ hpush
      rcases CArray.exists_push array hlen ch with ⟨array', hset, hfront⟩
      simpa [scan, hopen, hset, brackets, runCalls, step] using
        ih array' (ch :: stack) (by simp [hfront, hstack]) (hrest _ hpush)
    | false =>
      cases hclose : closes ch with
      | false =>
        have hskip : runCalls (step opens isMatching) stack (brackets [ch]) = some stack := by
          simp [brackets, hopen, hclose, runCalls]
        simpa [scan, hopen, hclose, brackets] using ih array stack hstack (hrest _ hskip)
      | true =>
        cases stack with
        | nil => simp [scan, hopen, hclose, brackets, runCalls, step]
        | cons last stack =>
          rw [length_cons] at hstack
          have hlast : array.get stack.length = some last := by
            rw [← CArray.getElem?_front array (Nat.lt_succ_self _), hstack]
            simp
          by_cases hmatch : isMatching last ch
          · have hpop : runCalls (step opens isMatching) (last :: stack) (brackets [ch]) =
              some stack := by
              simp [brackets, hopen, hclose, runCalls, step, hmatch]
            have hfront : array.front stack.length = stack.reverse := by
              rw [← CArray.take_front array (Nat.le_succ _), hstack]
              simp
            simpa [scan, hopen, hclose, hlast, hmatch, brackets, runCalls, step] using
              ih array stack hfront (hrest _ hpop)
          · simp [scan, hopen, hclose, hlast, hmatch, brackets, runCalls, step]

theorem length_le_of_runCalls {stack' : List UInt8}
    (h : runCalls (step opens isMatching) stack str = some stack') :
    stack'.length ≤ stack.length + str.length := by
  induction str generalizing stack with
  | nil =>
    cases h
    exact Nat.le_add_right _ _
  | cons ch str ih =>
    rcases Option.bind_eq_some_iff.1 h with ⟨stack1, hstep, hrun⟩
    have hlen := ih hrun
    have hone : stack1.length ≤ stack.length + 1 := by
      unfold step at hstep
      split at hstep
      · cases hstep
        exact Nat.le_refl _
      · split at hstep
        · cases hstep
        · split_ifs at hstep
          cases hstep
          exact Nat.le_succ_of_le (Nat.le_succ _)
    rw [length_cons]
    omega

/-- The version of 24-11-2025 never leaves its array, and it accepts the strings whose brackets
belong together by depth and pass its own comparison. -/
theorem isValid_eq (str : CString) (stack : CArray UInt8 str.bytes.length) (hne : str.bytes ≠ []) :
    ∃ valid, November24.isValid str stack = some valid ∧
      (valid = true ↔ IsNested str ∧ ∀ o c, Together str o c → November24.isMatching o c) := by
  have hroom : ∀ p, p <+: str.bytes → ∀ s,
      runCalls (step opens November24.isMatching) [] (brackets p) = some s →
        s.length ≤ str.bytes.length := by
    intro p hp s hs
    have hlen := length_le_of_runCalls hs
    rw [length_nil, zero_add] at hlen
    exact hlen.trans ((length_filter_le _ _).trans hp.length_le)
  rcases scan_eq stack [] rfl hroom with ⟨valid, hscan, hvalid⟩
  refine ⟨valid, by rw [November24.isValid, if_neg (by simpa using hne)]; exact hscan,
    hvalid.trans ?_⟩
  have hweak : ∀ o c, (nests opens o c && November24.isMatching o c) = true →
    nests opens o c = true :=
    fun o c h => (Bool.and_eq_true_iff.1 h).1
  rw [runCalls_step_iff hweak fun o c h => by simp [h], balanced_iff_paired hweak]
  refine and_congr_right fun _ => forall₂_congr fun o c => imp_congr_right fun h => ?_
  rcases h with ⟨-, -, -, -, -, hoc⟩
  simp [hoc]

/-- The version of 24-11-2025, for every string: it returns the right answer exactly if the string
is not empty and, if its brackets belong together by depth and no `(` belongs to a `}` and no `{` to
a `)`, then every square bracket belongs to a square bracket. -/
theorem valid_iff_balanced (str : CString) (stack : CArray UInt8 str.bytes.length) :
    ((∃ valid, November24.isValid str stack = some valid) ↔ str.bytes ≠ []) ∧
      ((∃ valid, November24.isValid str stack = some valid ∧ (valid = true ↔ IsBalanced str)) ↔
        str.bytes ≠ [] ∧ (IsNested str → ¬Together str 40 125 → ¬Together str 123 41 →
          ∀ o c, Together str o c → (o = 91 ↔ c = 93))) := by
  by_cases hne : str.bytes = []
  · have hnone : November24.isValid str stack = none := if_pos (by simp [hne])
    simp [hne, hnone]
  · rcases isValid_eq str stack hne with ⟨valid, hvalid, haccepts⟩
    refine ⟨by simp [hne, hvalid], ?_⟩
    have hbalanced : IsBalanced str ↔ IsNested str ∧ ∀ o c, Together str o c → kinds o c :=
      balanced_iff_paired nests_of_kinds
    simp only [hvalid, Option.some.injEq, exists_eq_left', ne_eq, hne, not_false_eq_true, true_and,
      haccepts, hbalanced]
    constructor
    · intro h hnested hround hcurly o c hoc
      have hmatch : ∀ o c, Together str o c → November24.isMatching o c := by
        intro o c hoc
        refine hoc.isMatching_iff.1.2 ⟨?_, ?_⟩
        · rintro ⟨rfl, rfl⟩
          exact hround hoc
        · rintro ⟨rfl, rfl⟩
          exact hcurly hoc
      exact (hoc.isMatching_iff.2 (hmatch o c hoc)).1 ((h.1 ⟨hnested, hmatch⟩).2 o c hoc)
    · intro h
      refine and_congr_right fun hnested => ⟨fun hmatch o c hoc => ?_, fun hkinds o c hoc => ?_⟩
      · refine (hoc.isMatching_iff.2 (hmatch o c hoc)).2 (h hnested ?_ ?_ o c hoc)
        · exact fun hround => absurd (hmatch 40 125 hround) (by decide)
        · exact fun hcurly => absurd (hmatch 123 41 hcurly) (by decide)
      · have hkind := hkinds o c hoc
        simp only [kinds, November24.isMatching, Bool.or_eq_true, Bool.and_eq_true] at hkind ⊢
        tauto

/-- `"(]"` -/
theorem square_bracket_closes_any : November24.isValid ⟨[40, 93], by decide⟩ (.fill 0) = some true ∧
      ¬IsBalanced ⟨[40, 93], by decide⟩ := by
  rw [IsBalanced, ← runCalls_step_iff nests_of_kinds fun _ _ _ => rfl]
  decide

/-- The version of 26-11-2025, where no prefix leaves more than 100 brackets open: it stays in its
array and returns true exactly on the balanced strings. -/
theorem valid_within_stack (str : CString) (stack : CArray UInt8 100)
    (hroom : ∀ p, p <+: str.bytes → ∀ s, stackAfter November26.isMatching p = some s →
      s.length ≤ 100) :
    ∃ valid, November26.isValid str stack = some valid ∧ (valid = true ↔ IsBalanced str) := by
  rcases scan_eq stack [] rfl hroom with ⟨valid, hscan, hvalid⟩
  exact ⟨valid, hscan, hvalid.trans (runCalls_step_iff nests_of_kinds fun _ _ _ => rfl)⟩

/-- `"(a[b])"` -/
theorem valid_within_stack_demo :
    ∃ valid, November26.isValid ⟨[40, 97, 91, 98, 93, 41], by decide⟩ (.fill 0) = some valid ∧
      (valid = true ↔ IsBalanced ⟨[40, 97, 91, 98, 93, 41], by decide⟩) := by
  refine valid_within_stack ⟨[40, 97, 91, 98, 93, 41], by decide⟩ (.fill 0) fun p hp s hs => ?_
  have hlen := length_le_of_runCalls hs
  have hle := (length_filter_le (fun ch => opens ch || closes ch) p).trans hp.length_le
  rw [length_nil, zero_add] at hlen
  exact (hlen.trans hle).trans (by decide)

end SystemsLab.Parentheses
