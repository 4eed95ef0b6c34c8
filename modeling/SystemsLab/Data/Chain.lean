import Mathlib.Data.List.Basic
import Mathlib.Data.List.Nodup

/-!
# Singly linked lists

`Linked next l e` says that the links of the addresses `l` lead from one to the next and from the
last one to `e`; `next` reads a link and fails where there is none.  `Linked.splice` and
`Linked.unsplice` are the two pointer assignments that put an element behind another one and take it
out again.

In a list with links in both directions, the links backward are a chain over the reversed list.  The
two rules for them say what the links must be after an element was taken out or put in front.
-/

namespace SystemsLab.Chain

open List Option

variable {next next' : Nat → Option (Option Nat)} {l l1 l2 : List Nat} {e : Option Nat} {a c : Nat}

/-- The addresses are linked in this order, up to `e`. -/
def Linked (next : Nat → Option (Option Nat)) : List Nat → Option Nat → Prop
  | [], _ => True
  | a :: l, e => next a = some (l.head?.or e) ∧ Linked next l e

theorem linked_append : Linked next (l1 ++ l2) e ↔
    Linked next l1 (l2.head?.or e) ∧ Linked next l2 e := by
  induction l1 with
  | nil => simp [Linked]
  | cons a l1 ih =>
    simp [Linked, ih, Option.or_assoc, and_assoc]

theorem Linked.congr (h : Linked next l e) (hnext : ∀ a ∈ l, next' a = next a) :
    Linked next' l e := by
  induction l with
  | nil => trivial
  | cons a l ih =>
    refine ⟨(hnext a mem_cons_self).trans h.1, ih h.2 fun b hb => ?_⟩
    exact hnext b (mem_cons_of_mem _ hb)

theorem Linked.exists_next (h : Linked next l e) (ha : a ∈ l) : ∃ p, next a = some p := by
  induction l with
  | nil => cases ha
  | cons b l ih =>
    rcases mem_cons.1 ha with rfl | ha
    · exact ⟨_, h.1⟩
    · exact ih h.2 ha

theorem Linked.last (h : Linked next (c :: l1 ++ l2) e) :
    next (l1.getLastD c) = some (l2.head?.or e) := by
  induction l1 generalizing c with
  | nil => exact h.1
  | cons a l1 ih =>
    rw [getLastD_cons]
    exact ih h.2

theorem exists_eq_append_getLastD (c : Nat) (l : List Nat) :
    ∃ l', c :: l = l' ++ [l.getLastD c] := by
  induction l generalizing c with
  | nil => exact ⟨[], rfl⟩
  | cons a l ih =>
    rcases ih a with ⟨l', hl'⟩
    exact ⟨c :: l', by rw [getLastD_cons, cons_append, ← hl']⟩

theorem Linked.splice (h : Linked next (l1 ++ c :: l2) e) (hnodup : (l1 ++ c :: l2).Nodup)
    (ha : a ∉ l1 ++ c :: l2) (hc : next' c = some (some a)) (hnew : next' a = next c)
    (hother : ∀ b, b ≠ c → b ≠ a → next' b = next b) : Linked next' (l1 ++ c :: a :: l2) e := by
  rcases linked_append.1 h with ⟨hfront, hlink, hback⟩
  rcases nodup_append.1 hnodup with ⟨-, hcl2, hdisj⟩
  have hrest : ∀ b, b ∈ l1 ∨ b ∈ l2 → next' b = next b := by
    intro b hb
    apply hother b
    · rintro rfl
      rcases hb with hb | hb
      · exact hdisj b hb b mem_cons_self rfl
      · exact (nodup_cons.1 hcl2).1 hb
    · rintro rfl
      exact ha (by simp only [mem_append]; tauto)
  refine linked_append.2 ⟨hfront.congr fun b hb => hrest b (.inl hb), hc, ?_, ?_⟩
  · rw [hnew, hlink]
  · exact hback.congr fun b hb => hrest b (.inr hb)

theorem Linked.splice_last (h : Linked next (c :: l1 ++ l2) e) (hnodup : (c :: l1 ++ l2).Nodup)
    (ha : a ∉ c :: l1 ++ l2) (hlast : next' (l1.getLastD c) = some (some a))
    (hnew : next' a = next (l1.getLastD c))
    (hother : ∀ b, b ≠ l1.getLastD c → b ≠ a → next' b = next b) :
    Linked next' (c :: l1 ++ a :: l2) e := by
  rcases exists_eq_append_getLastD c l1 with ⟨l', hl'⟩
  rw [hl', append_assoc] at h hnodup ha ⊢
  exact h.splice hnodup ha hlast hnew hother

theorem Linked.unsplice (h : Linked next (l1 ++ c :: a :: l2) e)
    (hnodup : (l1 ++ c :: a :: l2).Nodup) (hc : next' c = next a)
    (hother : ∀ b, b ≠ c → b ≠ a → next' b = next b) : Linked next' (l1 ++ c :: l2) e := by
  rcases linked_append.1 h with ⟨hfront, -, hlink, hback⟩
  rcases nodup_append.1 hnodup with ⟨-, hcl2, hdisj⟩
  rcases nodup_cons.1 hcl2 with ⟨hc', hal2⟩
  refine linked_append.2 ⟨hfront.congr fun b hb => ?_, hc.trans hlink, hback.congr fun b hb => ?_⟩
  · apply hother b
    · rintro rfl
      exact hdisj b hb b (by simp) rfl
    · rintro rfl
      exact hdisj b hb b (by simp) rfl
  · apply hother b
    · rintro rfl
      exact hc' (mem_cons_of_mem _ hb)
    · rintro rfl
      exact (nodup_cons.1 hal2).1 hb

theorem Linked.unsplice_last (h : Linked next (c :: l1 ++ a :: l2) e)
    (hnodup : (c :: l1 ++ a :: l2).Nodup) (hlast : next' (l1.getLastD c) = next a)
    (hother : ∀ b, b ≠ l1.getLastD c → b ≠ a → next' b = next b) :
    Linked next' (c :: l1 ++ l2) e := by
  rcases exists_eq_append_getLastD c l1 with ⟨l', hl'⟩
  rw [hl', append_assoc] at h hnodup ⊢
  exact h.unsplice hnodup hlast hother

theorem Linked.remove (h : Linked next (l1 ++ a :: l2) e) (hnodup : (l1 ++ a :: l2).Nodup)
    (hbefore : ∀ c, l1.getLast? = some c → next' c = next a)
    (hother : ∀ b, l1.getLast? ≠ some b → b ≠ a → next' b = next b) :
    Linked next' (l1 ++ l2) e := by
  rcases l1.eq_nil_or_concat with rfl | ⟨l, c, rfl⟩
  · refine h.2.congr fun b hb => hother b (by simp) ?_
    rintro rfl
    exact (nodup_cons.1 hnodup).1 hb
  · rw [concat_eq_append, append_assoc] at *
    rw [getLast?_concat] at hbefore hother
    exact h.unsplice hnodup (hbefore c rfl) fun b hb => hother b fun heq => hb (some.inj heq).symm

theorem Linked.relink {x : Option Nat} (h : Linked next l e) (hnodup : l.Nodup)
    (hlast : ∀ c, l.getLast? = some c → next' c = some x)
    (hother : ∀ b ∈ l, l.getLast? ≠ some b → next' b = next b) : Linked next' l x := by
  rcases l.eq_nil_or_concat with rfl | ⟨l, c, rfl⟩
  · trivial
  · rw [concat_eq_append] at *
    rw [getLast?_concat] at hlast hother
    rcases linked_append.1 h with ⟨hfront, -⟩
    refine linked_append.2 ⟨hfront.congr fun b hb => hother b (mem_append_left _ hb) ?_,
      hlast c rfl, trivial⟩
    intro heq
    exact (nodup_append.1 hnodup).2.2 b hb c (mem_singleton_self c) (some.inj heq).symm

theorem Linked.not_dangling (h : Linked next l (some a)) (ha : next a = none) {l' : List Nat}
    (hstart : l.head?.or (some a) = l'.head?) : ¬Linked next l' none := by
  induction l generalizing l' with
  | nil =>
    cases l' with
    | nil => cases hstart
    | cons b l' =>
      obtain rfl : a = b := some.inj hstart
      rintro ⟨hlink, -⟩
      rw [ha] at hlink
      cases hlink
  | cons c l ih =>
    cases l' with
    | nil => cases hstart
    | cons b l' =>
      obtain rfl : c = b := some.inj hstart
      rintro ⟨hlink, hrest⟩
      refine ih h.2 ?_ hrest
      rw [← or_none (o := l'.head?)]
      exact some.inj (h.1.symm.trans hlink)

end SystemsLab.Chain

namespace SystemsLab

open Chain List

/-- `next` leads through the addresses in this order, and `prev` back again. -/
structure DoublyLinked (next prev : Nat → Option (Option Nat)) (l : List Nat) : Prop where
  nodup : l.Nodup
  forward : Linked next l none
  backward : Linked prev l.reverse none

namespace DoublyLinked

variable {next prev next' prev' : Nat → Option (Option Nat)} {l l1 l2 : List Nat} {a : Nat}

theorem nil : DoublyLinked next prev [] := ⟨nodup_nil, trivial, trivial⟩

theorem congr (h : DoublyLinked next prev l) (hnext : ∀ a ∈ l, next' a = next a)
    (hprev : ∀ a ∈ l, prev' a = prev a) : DoublyLinked next' prev' l where
  nodup := h.nodup
  forward := h.forward.congr hnext
  backward := h.backward.congr fun a ha => hprev a (mem_reverse.1 ha)

theorem next_eq (h : DoublyLinked next prev (l1 ++ a :: l2)) : next a = some l2.head? := by
  have hnext := (linked_append.1 h.forward).2.1
  rwa [Option.or_none] at hnext

theorem reverse_middle : (l1 ++ a :: l2).reverse = l2.reverse ++ a :: l1.reverse := by
  rw [reverse_append, reverse_cons, append_assoc, singleton_append]

theorem prev_eq (h : DoublyLinked next prev (l1 ++ a :: l2)) : prev a = some l1.getLast? := by
  have hback := h.backward
  rw [reverse_middle] at hback
  have hprev := (linked_append.1 hback).2.1
  rwa [Option.or_none, head?_reverse] at hprev

theorem head?_remove : (if l1.getLast? = none then l2.head? else (l1 ++ a :: l2).head?) =
    (l1 ++ l2).head? := by
  cases l1 with
  | nil => rfl
  | cons b l1 =>
    rfl

theorem getLast?_remove :
    (if l2.head? = none then l1.getLast? else (l1 ++ a :: l2).getLast?) = (l1 ++ l2).getLast? := by
  cases l2 with
  | nil => rw [head?_nil, if_pos rfl, append_nil]
  | cons b l2 =>
    rw [if_neg (by simp), getLast?_append, getLast?_append, getLast?_cons_cons]

theorem remove (h : DoublyLinked next prev (l1 ++ a :: l2))
    (hbefore : ∀ c, l1.getLast? = some c → next' c = next a)
    (hnext : ∀ b, l1.getLast? ≠ some b → next' b = next b)
    (hafter : ∀ c, l2.head? = some c → prev' c = prev a)
    (hprev : ∀ b, l2.head? ≠ some b → prev' b = prev b) : DoublyLinked next' prev' (l1 ++ l2) where
  nodup := (nodup_cons.1 (nodup_middle.1 h.nodup)).2
  forward := h.forward.remove h.nodup hbefore fun b hb _ => hnext b hb
  backward := by
    have hback := h.backward
    have hnodup := nodup_reverse.2 h.nodup
    rw [reverse_middle] at hback hnodup
    rw [reverse_append]
    refine hback.remove hnodup ?_ ?_
    · intro c hc
      rw [getLast?_reverse] at hc
      exact hafter c hc
    · intro b hb _
      rw [getLast?_reverse] at hb
      exact hprev b hb

theorem cons (h : DoublyLinked next prev l) (ha : a ∉ l) (hnext : next' a = some l.head?)
    (hnextOther : ∀ b, b ≠ a → next' b = next b) (hprev : prev' a = some none)
    (hfirst : ∀ c, l.head? = some c → prev' c = some (some a))
    (hprevOther : ∀ b, b ≠ a → l.head? ≠ some b → prev' b = prev b) :
    DoublyLinked next' prev' (a :: l) where
  nodup := nodup_cons.2 ⟨ha, h.nodup⟩
  forward := by
    refine ⟨by rw [hnext, Option.or_none], h.forward.congr fun b hb => hnextOther b ?_⟩
    rintro rfl
    exact ha hb
  backward := by
    rw [reverse_cons]
    refine linked_append.2 ⟨h.backward.relink (nodup_reverse.2 h.nodup) ?_ ?_, hprev, trivial⟩
    · intro c hc
      rw [getLast?_reverse] at hc
      exact hfirst c hc
    · intro b hb hlast
      rw [getLast?_reverse] at hlast
      refine hprevOther b ?_ hlast
      rintro rfl
      exact ha (mem_reverse.1 hb)

end DoublyLinked
end SystemsLab
