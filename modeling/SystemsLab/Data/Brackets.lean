import SystemsLab.Data.CallSequence

/-!
# Words of matched brackets and the stack that recognises them

* `Balanced pair` — the language `S → ε | o S c S` with one rule for every `pair o c`;
* `runCalls_step_iff` — the recogniser ends with the empty stack exactly on the words of the
  language;
* `balanced_iff_paired` — which brackets belong together is decided by their depths alone.
-/

namespace SystemsLab.Brackets

open CallSequence List

variable {α : Type*}

inductive Balanced (pair : α → α → Bool) : List α → Prop
  | nil : Balanced pair []
  | wrap {o c : α} {u v : List α} : pair o c → Balanced pair u → Balanced pair v →
      Balanced pair (o :: (u ++ c :: v))

/-- The word closes the open brackets of the stack, the innermost one first. -/
def Closes (pair : α → α → Bool) : List α → List α → Prop
  | [], w => Balanced pair w
  | o :: stack, w => ∃ u c v, w = u ++ c :: v ∧ Balanced pair u ∧ pair o c ∧ Closes pair stack v

/-- An opening bracket is pushed, a closing one has to match the last one. -/
def step (isOpen : α → Bool) (pair : α → α → Bool) (stack : List α) (ch : α) : Option (List α) :=
  if isOpen ch then some (ch :: stack)
  else
    match stack with
    | [] => none
    | last :: stack => if pair last ch then some stack else none

/-- An opening and a closing bracket, of any kinds. -/
def nests (isOpen : α → Bool) (o c : α) : Bool := isOpen o && !isOpen c

/-- The brackets belong together by their depth: what stands between them is matched when the kinds
are ignored. -/
def Paired (isOpen : α → Bool) (w : List α) (o c : α) : Prop :=
  ∃ a u b, w = a ++ o :: (u ++ c :: b) ∧ Balanced (nests isOpen) u ∧ nests isOpen o c

variable {isOpen : α → Bool} {pair pair' : α → α → Bool} {stack u v w : List α} {o c ch : α}

theorem nests_iff : nests isOpen o c = true ↔ isOpen o = true ∧ isOpen c = false := by simp [nests]

theorem Balanced.mono (hpair : ∀ o c, pair o c → pair' o c) (h : Balanced pair w) :
    Balanced pair' w := by
  induction h with
  | nil => exact .nil
  | wrap hoc _ _ ihu ihv => exact .wrap (hpair _ _ hoc) ihu ihv

theorem Balanced.append (hu : Balanced pair u) (hv : Balanced pair v) : Balanced pair (u ++ v) := by
  induction hu with
  | nil => exact hv
  | wrap hpair hu _ _ ih =>
    rw [cons_append, append_assoc]
    exact .wrap hpair hu ih

theorem Closes.prepend (hu : Balanced pair u) (h : Closes pair stack v) :
    Closes pair stack (u ++ v) := by
  cases stack with
  | nil => exact hu.append h
  | cons o stack =>
    rcases h with ⟨u', c, v', rfl, hu', hpair, hrest⟩
    exact ⟨u ++ u', c, v', (append_assoc ..).symm, hu.append hu', hpair, hrest⟩

section Recogniser

variable (hpair : ∀ o c, pair o c → nests isOpen o c)

include hpair

theorem Balanced.head_isOpen (h : Balanced pair (ch :: w)) : isOpen ch = true := by
  cases h with
  | wrap hoc => exact (nests_iff.1 (hpair _ _ hoc)).1

theorem closes_open_iff (hopen : isOpen ch = true) :
    Closes pair stack (ch :: w) ↔ Closes pair (ch :: stack) w := by
  constructor
  · intro h
    cases stack with
    | nil =>
      cases h with
      | wrap hoc hu hv => exact ⟨_, _, _, rfl, hu, hoc, hv⟩
    | cons o stack =>
      rcases h with ⟨u, c, v, heq, hu, hoc, hrest⟩
      cases hu with
      | nil =>
        -- an opening bracket does not close one
        cases heq
        simp [(nests_iff.1 (hpair _ _ hoc)).2] at hopen
      | wrap hch hu hv =>
        cases heq
        exact ⟨_, _, _, by simp, hu, hch, _, _, _, rfl, hv, hoc, hrest⟩
  · rintro ⟨u, c, v, rfl, hu, hoc, hrest⟩
    have h := Closes.prepend (.wrap hoc hu .nil) hrest
    rwa [cons_append, append_assoc] at h

theorem closes_close_iff (hclose : isOpen ch = false) :
    Closes pair (o :: stack) (ch :: w) ↔ pair o ch ∧ Closes pair stack w := by
  constructor
  · rintro ⟨u, c, v, heq, hu, hoc, hrest⟩
    cases u with
    | nil =>
      cases heq
      exact ⟨hoc, hrest⟩
    | cons b u =>
      cases heq
      simp [hu.head_isOpen hpair] at hclose
  · rintro ⟨hoc, hrest⟩
    exact ⟨[], ch, w, rfl, .nil, hoc, hrest⟩

theorem not_closes_nil (hclose : isOpen ch = false) : ¬Closes pair [] (ch :: w) := by
  intro h
  simp [Balanced.head_isOpen hpair h] at hclose

/-- The recogniser accepts the words of the language. -/
theorem runCalls_step_iff_closes (hstack : ∀ o ∈ stack, isOpen o)
    (hkinds : ∀ o c, nests isOpen o c → pair' o c = pair o c) :
    runCalls (step isOpen pair') stack w = some [] ↔ Closes pair stack w := by
  induction w generalizing stack with
  | nil =>
    cases stack with
    | nil => exact ⟨fun _ => .nil, fun _ => rfl⟩
    | cons o stack => simp [runCalls, Closes]
  | cons ch w ih =>
    cases hopen : isOpen ch with
    | true =>
      rw [closes_open_iff hpair hopen, ← ih (forall_mem_cons.2 ⟨hopen, hstack⟩)]
      simp [runCalls, step, hopen]
    | false =>
      cases stack with
      | nil => simp [runCalls, step, hopen, not_closes_nil hpair hopen]
      | cons o stack =>
        rcases forall_mem_cons.1 hstack with ⟨ho, hrest⟩
        rw [closes_close_iff hpair hopen, ← ih hrest, ← hkinds o ch (nests_iff.2 ⟨ho, hopen⟩)]
        by_cases hoc : pair' o ch <;> simp [runCalls, step, hopen, hoc]

theorem runCalls_step_iff (hkinds : ∀ o c, nests isOpen o c → pair' o c = pair o c) :
    runCalls (step isOpen pair') [] w = some [] ↔ Balanced pair w :=
  runCalls_step_iff_closes hpair (by simp) hkinds

/-! ## Brackets that belong together -/

/-- A word that is matched when the kinds are ignored is read up to its end if anything is. -/
theorem Closes.of_append (hu : Balanced (nests isOpen) u) (h : Closes pair stack (u ++ v)) :
    Closes pair stack v := by
  induction hu generalizing stack v with
  | nil => exact h
  | @wrap o c u u' hoc _ _ ihu ihu' =>
    rcases nests_iff.1 hoc with ⟨hopen, hclose⟩
    rw [cons_append, append_assoc, closes_open_iff hpair hopen] at h
    exact ihu' ((closes_close_iff hpair hclose).1 (ihu h)).2

theorem Closes.pair_of_paired {a b : List α} (hu : Balanced (nests isOpen) u)
    (hoc : nests isOpen o c) (h : Closes pair stack (a ++ o :: (u ++ c :: b))) : pair o c := by
  rcases nests_iff.1 hoc with ⟨hopen, hclose⟩
  induction a generalizing stack with
  | nil =>
    rw [nil_append, closes_open_iff hpair hopen] at h
    exact ((closes_close_iff hpair hclose).1 (h.of_append hpair hu)).1
  | cons ch a ih =>
    cases hch : isOpen ch with
    | true => exact ih ((closes_open_iff hpair hch).1 h)
    | false =>
      cases stack with
      | nil => exact (not_closes_nil hpair hch h).elim
      | cons o' stack => exact ih ((closes_close_iff hpair hch).1 h).2

/-- A word is in the language exactly if its brackets belong together by depth and all of them are
of one kind. -/
theorem balanced_iff_paired :
    Balanced pair w ↔ Balanced (nests isOpen) w ∧ ∀ o c, Paired isOpen w o c → pair o c := by
  refine ⟨fun h => ⟨h.mono hpair, ?_⟩, ?_⟩
  · rintro o c ⟨a, u, b, rfl, hu, hoc⟩
    exact Closes.pair_of_paired hpair hu hoc (show Closes pair [] _ from h)
  · rintro ⟨h, hkinds⟩
    induction h with
    | nil => exact .nil
    | @wrap o c u v hoc hu _ ihu ihv =>
      refine .wrap (hkinds o c ⟨[], u, v, rfl, hu, hoc⟩) (ihu ?_) (ihv ?_)
      · rintro o' c' ⟨a, u', b, rfl, hpaired⟩
        exact hkinds o' c' ⟨o :: a, u', b ++ c :: v, by simp, hpaired⟩
      · rintro o' c' ⟨a, u', b, rfl, hpaired⟩
        exact hkinds o' c' ⟨o :: (u ++ c :: a), u', b, by simp, hpaired⟩

end Recogniser

end SystemsLab.Brackets
