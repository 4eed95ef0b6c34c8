import Mathlib.Algebra.BigOperators.Group.List.Basic
import Mathlib.Algebra.Order.Ring.Int

/-!
# What is outside the brackets of a list

Every element has a weight: an opening bracket one, a closing one minus one, the others zero.  The
`height` of a beginning of the list says how deep the next element is nested; an element is on top
if the height before it is zero.

- `Guarded` — no beginning closes more than it has opened;
- `NoTop` — no element with `p` is on top; `LastTop` — the list is cut at the last one that is.
-/

namespace SystemsLab.Nesting

open List

variable {α : Type*} (w : α → Int)

def height (l : List α) : Int := (l.map w).sum

def Guarded (l : List α) : Prop := ∀ a b, l = a ++ b → 0 ≤ height w a

def NoTop (p : α → Prop) (l : List α) : Prop := ∀ a c b, l = a ++ c :: b → p c → height w a ≠ 0

structure LastTop (p : α → Prop) (l u : List α) (c : α) (v : List α) : Prop where
  eq : l = u ++ c :: v
  prop : p c
  top : height w u = 0
  last : NoTop w p v

variable {w} {p q : α → Prop} {l u v : List α} {c : α}

@[simp] theorem height_nil : height w [] = 0 := rfl

@[simp] theorem height_cons (c : α) (l : List α) : height w (c :: l) = w c + height w l := by
  simp [height]

@[simp] theorem height_append (u v : List α) : height w (u ++ v) = height w u + height w v := by
  simp [height]

theorem append_eq_append_cons {a b : List α} (h : u ++ v = a ++ c :: b) :
    (∃ m, u = a ++ c :: m ∧ b = m ++ v) ∨ ∃ m, a = u ++ m ∧ v = m ++ c :: b := by
  rcases append_eq_append_iff.1 h with ⟨m, rfl, hv⟩ | ⟨m, rfl, hm⟩
  · exact .inr ⟨m, rfl, hv⟩
  · cases m with
    | nil => exact .inr ⟨[], by simp, by simpa using hm.symm⟩
    | cons d m =>
      cases hm
      exact .inl ⟨m, rfl, rfl⟩

namespace NoTop

theorem mono (h : NoTop w p l) (hpq : ∀ c, q c → p c) : NoTop w q l :=
  fun a c b hl hc => h a c b hl (hpq c hc)

theorem singleton (h : ¬p c) : NoTop w p [c] := by
  intro a d b hl hd
  cases a with
  | nil => simp_all
  | cons e a => simp at hl

theorem append (hu : NoTop w p u) (hv : NoTop w p v) (hheight : height w u = 0) :
    NoTop w p (u ++ v) := by
  intro a c b hl hc
  rcases append_eq_append_cons hl with ⟨m, rfl, -⟩ | ⟨m, rfl, rfl⟩
  · exact hu a c m rfl hc
  · simpa [hheight] using hv m c b rfl hc

theorem append_cons (hu : NoTop w p u) (hv : NoTop w p v) (hheight : height w u = 0) (hc : ¬p c)
    (hw : w c = 0) : NoTop w p (u ++ c :: v) := by
  refine hu.append ?_ hheight
  exact (NoTop.singleton hc).append hv (by simp [hw])

theorem enclosed {o e : α} (hu : Guarded w u) (ho : ¬p o) (he : ¬p e) (hopen : w o = 1) :
    NoTop w p (o :: u ++ [e]) := by
  intro a c b hl hc
  cases a with
  | nil => simp_all
  | cons d a =>
    rcases cons_eq_cons.1 hl with ⟨rfl, htail⟩
    rcases append_eq_append_cons htail with ⟨m, hm, -⟩ | ⟨m, rfl, hm⟩
    · have hge := hu a (c :: m) hm
      rw [height_cons, hopen]
      omega
    · cases m with
      | nil => simp_all
      | cons f m => simp at hm

end NoTop

namespace Guarded

theorem singleton (h : 0 ≤ w c) : Guarded w [c] := by
  intro a b hl
  cases a with
  | nil => exact le_refl 0
  | cons d a =>
    cases a with
    | nil => simp_all
    | cons e a => simp at hl

theorem append (hu : Guarded w u) (hv : Guarded w v) (hheight : height w u = 0) :
    Guarded w (u ++ v) := by
  intro a b hl
  rcases append_eq_append_iff.1 hl with ⟨m, rfl, hm⟩ | ⟨m, rfl, hm⟩
  · have hge := hv m b hm
    rw [height_append, hheight]
    omega
  · exact hu a m rfl

theorem append_cons (hu : Guarded w u) (hv : Guarded w v) (hheight : height w u = 0)
    (hw : w c = 0) :
    Guarded w (u ++ c :: v) := by
  refine hu.append ?_ hheight
  exact (Guarded.singleton (by omega)).append hv (by simp [hw])

theorem enclosed {o e : α} (hu : Guarded w u) (hheight : height w u = 0) (hopen : w o = 1)
    (hclose : w e = -1) : Guarded w (o :: u ++ [e]) := by
  intro a b hl
  cases a with
  | nil => exact le_refl 0
  | cons d a =>
    rcases cons_eq_cons.1 hl with ⟨rfl, htail⟩
    rw [height_cons, hopen]
    rcases append_eq_append_iff.1 htail with ⟨m, rfl, hm⟩ | ⟨m, hm, -⟩
    · rw [height_append, hheight]
      rcases append_eq_singleton_iff.1 hm.symm with ⟨rfl, -⟩ | ⟨rfl, -⟩
      · simp
      · simp [hclose]
    · have hge := hu a m hm
      omega

end Guarded

theorem LastTop.not_noTop (h : LastTop w p l u c v) (hpq : p c → q c) : ¬NoTop w q l :=
  fun hno => hno u c v h.eq (hpq h.prop) h.top

/-- The cut at the last element with `p` on top is unique. -/
theorem LastTop.unique {u' v' : List α} {c' : α} (h : LastTop w p l u c v)
    (h' : LastTop w p l u' c' v') (hw : ∀ c, p c → w c = 0) : u = u' ∧ c = c' ∧ v = v' := by
  have hcut := h.eq.symm.trans h'.eq
  rcases append_eq_append_cons hcut with ⟨m, hu, hv'⟩ | ⟨m, hu', hv⟩
  · -- `c` would be on top in `v'`
    have htop := h.top
    rw [hu, height_append, height_cons, h'.top, hw c' h'.prop] at htop
    exact absurd (by omega) (h'.last m c v hv' h.prop)
  · cases m with
    | nil => simp_all
    | cons d m =>
      rcases cons_eq_cons.1 hv with ⟨rfl, htail⟩
      have htop := h'.top
      rw [hu', height_append, height_cons, h.top, hw c h.prop] at htop
      exact absurd (by omega) (h.last m c' v' htail h'.prop)

end SystemsLab.Nesting
