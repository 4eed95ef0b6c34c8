import Mathlib.Data.Finset.Card

/-!
# Memory cells behind addresses

A heap maps addresses to cells; an address without a cell is not allocated.  Every address from
`brk` on has never been used, so there is always an address to hand out.  An allocator may also
reuse any freed address: the `hint` of `alloc` stands for that choice.
-/

namespace SystemsLab

open Function Option Finset

/-- Memory with a bound on the addresses in use. -/
structure Heap (ν : Type*) where
  cell : Nat → Option ν
  brk : Nat
  unused : ∀ a, brk ≤ a → cell a = none

namespace Heap

variable {ν : Type*} {h : Heap ν} {a b : Nat} {v : ν} {f : ν → ν}

def empty : Heap ν := ⟨fun _ => none, 0, fun _ _ => rfl⟩

theorem lt_brk (hv : h.cell a = some v) : a < h.brk := by
  by_contra hge
  rw [h.unused a (not_lt.1 hge)] at hv
  cases hv

/-- The address that is handed out: the hint if it is free, or the first unused one. -/
def freshAddr (h : Heap ν) (hint : Nat) : Nat :=
  if (h.cell hint).isNone then hint else h.brk

theorem cell_freshAddr (h : Heap ν) (hint : Nat) : h.cell (h.freshAddr hint) = none := by
  unfold freshAddr
  split_ifs with hfree
  · exact isNone_iff_eq_none.1 hfree
  · exact h.unused h.brk le_rfl

def alloc (h : Heap ν) (hint : Nat) (v : ν) : Heap ν where
  cell := update h.cell (h.freshAddr hint) (some v)
  brk := max h.brk (h.freshAddr hint + 1)
  unused a ha := by
    rw [update_of_ne (by omega)]
    exact h.unused a (by omega)

@[simp] theorem alloc_self (h : Heap ν) (hint : Nat) (v : ν) :
    (h.alloc hint v).cell (h.freshAddr hint) = some v :=
  update_self ..

theorem alloc_of_ne {hint : Nat} (hne : a ≠ h.freshAddr hint) :
    (h.alloc hint v).cell a = h.cell a :=
  update_of_ne hne ..

def adjust (h : Heap ν) (a : Nat) (f : ν → ν) : Heap ν where
  cell := update h.cell a ((h.cell a).map f)
  brk := h.brk
  unused b hb := by
    rcases eq_or_ne b a with rfl | hba
    · rw [update_self, h.unused b hb, Option.map_none]
    · rw [update_of_ne hba, h.unused b hb]

@[simp] theorem adjust_brk (h : Heap ν) (a : Nat) (f : ν → ν) : (h.adjust a f).brk = h.brk := rfl

theorem adjust_self (hv : h.cell a = some v) : (h.adjust a f).cell a = some (f v) := by
  simp [adjust, hv]

theorem adjust_of_ne (hne : b ≠ a) : (h.adjust a f).cell b = h.cell b := update_of_ne hne ..

/-- What the change keeps of a cell is the same everywhere. -/
theorem map_adjust {γ : Type*} {g : ν → γ} (hg : ∀ v, g (f v) = g v) (b : Nat) :
    ((h.adjust a f).cell b).map g = (h.cell b).map g := by
  by_cases hb : b = a
  · subst hb
    cases hv : h.cell b with
    | none => simp [adjust, hv]
    | some v => rw [adjust_self hv, map_some, map_some, hg]
  · rw [adjust_of_ne hb]

/-- A write through a pointer, which fails at an address that is not allocated. -/
def modify (h : Heap ν) (a : Nat) (f : ν → ν) : Option (Heap ν) :=
  (h.cell a).map fun _ => h.adjust a f

theorem modify_eq (hv : h.cell a = some v) : h.modify a f = some (h.adjust a f) := by
  simp [modify, hv]

/-- A change through a pointer that may be `NULL`. -/
@[irreducible] def assign (h : Heap ν) (p : Option Nat) (f : ν → ν) : Heap ν :=
  p.elim h fun a => h.adjust a f

theorem modify_assign (ha : (h.cell a).isSome) : h.modify a f = some (h.assign (some a) f) := by
  rcases isSome_iff_exists.1 ha with ⟨v, hv⟩
  simp [modify_eq hv, assign]

theorem cell_assign (h : Heap ν) (p : Option Nat) (f : ν → ν) (b : Nat) :
    (h.assign p f).cell b = (h.cell b).map fun v => if p = some b then f v else v := by
  cases p with
  | none => simp [assign]
  | some a =>
    by_cases hb : b = a
    · cases hv : h.cell b <;> simp [assign, adjust, ← hb, hv]
    · simp [assign, adjust_of_ne hb, Ne.symm hb]

theorem assign_of_ne {p : Option Nat} (hp : p ≠ some b) : (h.assign p f).cell b = h.cell b := by
  simp [cell_assign, hp]

@[simp] theorem isSome_assign {p : Option Nat} :
    ((h.assign p f).cell b).isSome = (h.cell b).isSome := by
  simp [cell_assign]

@[simp] theorem assign_none : h.assign none f = h := by
  simp [assign]

theorem map_assign {γ : Type*} {g : ν → γ} (hg : ∀ v, g (f v) = g v) (p : Option Nat) (b : Nat) :
    ((h.assign p f).cell b).map g = (h.cell b).map g := by
  cases p with
  | none => rw [assign_none]
  | some a => simpa [assign] using map_adjust hg b

def free (h : Heap ν) (a : Nat) : Heap ν where
  cell := update h.cell a none
  brk := h.brk
  unused b hb := by
    rcases eq_or_ne b a with rfl | hba
    · exact update_self ..
    · rw [update_of_ne hba, h.unused b hb]

theorem free_of_ne (hne : b ≠ a) : (h.free a).cell b = h.cell b := update_of_ne hne ..

theorem length_le_brk {l : List Nat} (hn : l.Nodup) (hl : ∀ a ∈ l, ∃ v, h.cell a = some v) :
    l.length ≤ h.brk := by
  have hsub : l.toFinset ⊆ range h.brk := by
    intro a ha
    rcases hl a (List.mem_toFinset.1 ha) with ⟨v, hv⟩
    exact mem_range.2 (lt_brk hv)
  calc
    l.length = l.toFinset.card := (List.toFinset_card_of_nodup hn).symm
    _ ≤ (range h.brk).card := card_le_card hsub
    _ = h.brk := card_range h.brk

@[simp] theorem freshAddr_brk (h : Heap ν) : h.freshAddr h.brk = h.brk := by
  simp [freshAddr]

@[simp] theorem alloc_brk_self (h : Heap ν) (v : ν) : (h.alloc h.brk v).cell h.brk = some v := by
  have hself := h.alloc_self h.brk v
  rwa [freshAddr_brk] at hself

theorem alloc_brk_of_ne (hne : a ≠ h.brk) : (h.alloc h.brk v).cell a = h.cell a := by
  apply alloc_of_ne
  rwa [freshAddr_brk]

@[simp] theorem brk_alloc_brk (h : Heap ν) (v : ν) : (h.alloc h.brk v).brk = h.brk + 1 := by
  simp [alloc]

theorem alloc_modify (hv : h.cell a = some v) (w : ν) (f : ν → ν) :
    ∃ h', (h.alloc h.brk w).modify a f = some h' ∧ h'.brk = h.brk + 1 ∧ h'.cell a = some (f v) ∧
      h'.cell h.brk = some w ∧ ∀ b, b ≠ a → b ≠ h.brk → h'.cell b = h.cell b := by
  have hlt := lt_brk hv
  have hv' : (h.alloc h.brk w).cell a = some v := by rw [alloc_brk_of_ne hlt.ne, hv]
  refine ⟨(h.alloc h.brk w).adjust a f, modify_eq hv', by simp, adjust_self hv', ?_, ?_⟩
  · rw [adjust_of_ne hlt.ne', alloc_brk_self]
  · intro b hba hb
    rw [adjust_of_ne hba, alloc_brk_of_ne hb]

/-- From `h` to `h'` only cells in `F` were written, and what is now at `F'` was at `F` or is new.
-/
structure Grows (h h' : Heap ν) (F F' : List Nat) : Prop where
  brk : h.brk ≤ h'.brk
  frame : ∀ a, a ∉ F → a < h.brk → h'.cell a = h.cell a
  fresh : ∀ a ∈ F', a ∈ F ∨ h.brk ≤ a

theorem Grows.trans {h1 h2 h3 : Heap ν} {F1 F2 F3 : List Nat} (h : Grows h1 h2 F1 F2)
    (h' : Grows h2 h3 F2 F3) : Grows h1 h3 F1 F3 := by
  refine ⟨h.brk.trans h'.brk, ?_, ?_⟩
  · intro a ha hlt
    rw [h'.frame a _ (lt_of_lt_of_le hlt h.brk), h.frame a ha hlt]
    intro ha2
    rcases h.fresh a ha2 with ha1 | hge
    · exact ha ha1
    · omega
  · intro a ha
    rcases h'.fresh a ha with ha2 | hge
    · exact h.fresh a ha2
    · exact .inr (h.brk.trans hge)

end Heap
end SystemsLab
