import Mathlib.Data.List.Basic
import Mathlib.Order.Lattice

/-!
# Keys that guide the way to one of several lists

In a tree that keeps its content in the leaves, a branch guides with copies: the key between two
neighbouring subtrees is the first key of the right one.  `Guides ks ls` says so for lists of keys;
when all keys together are increasing, a key that lies between two separators can only be in the
list between them.
-/

namespace SystemsLab

open List

variable {κ : Type} {K J ks : List κ} {A B : List (List κ)} {l l' l'' : List κ} {k s x key : κ}

/-- Each key is the first of the list behind it. -/
def Guides (ks : List κ) (ls : List (List κ)) : Prop := ks.map some = ls.tail.map List.head?

namespace Guides

theorem tail_append_cons (A : List (List κ)) (l : List κ) (B : List (List κ)) :
    (A ++ l :: B).tail = (A ++ [l]).tail ++ B := by
  cases A with
  | nil => rfl
  | cons a A => simp

theorem split (hK : A.length = K.length) :
    Guides (K ++ J) (A ++ l :: B) ↔ Guides K (A ++ [l]) ∧ J.map some = B.map head? := by
  unfold Guides
  rw [tail_append_cons, map_append, map_append]
  constructor
  · intro h
    exact append_inj h (by simp [hK])
  · rintro ⟨hfront, hback⟩
    rw [hfront, hback]

/-- The first key of a list is only a separator when there is a list before. -/
theorem replace_last (hfront : Guides K (A ++ [l])) (hhead : A = [] ∨ l'.head? = l.head?) :
    Guides K (A ++ [l']) := by
  cases A with
  | nil => exact hfront
  | cons a A =>
    have hl : l'.head? = l.head? := hhead.resolve_left (cons_ne_nil _ _)
    simpa [Guides, hl] using hfront

/-- A list whose first key is a separator has one. -/
theorem last_head (hfront : Guides K (A ++ [l])) (hA : A ≠ []) : ∃ k ∈ K, l.head? = some k := by
  cases A with
  | nil => exact absurd rfl hA
  | cons a A =>
    have hmem : l.head? ∈ K.map some := by
      rw [hfront]
      simp
    rcases mem_map.1 hmem with ⟨k, hk, heq⟩
    exact ⟨k, hk, heq.symm⟩

theorem sublist_of_heads (h : J.map some = B.map head?) : J.Sublist B.flatten := by
  induction B generalizing J with
  | nil =>
    rw [map_nil, map_eq_nil_iff] at h
    rw [h]
    exact nil_sublist _
  | cons b B ih =>
    cases J with
    | nil => exact nil_sublist _
    | cons j J =>
      rcases cons_eq_cons.1 h with ⟨hj, hJ⟩
      rcases head?_eq_some_iff.1 hj.symm with ⟨b', rfl⟩
      exact ((ih hJ).trans (sublist_append_right _ _)).cons_cons j

theorem sublist_flatten (h : Guides ks A) : ks.Sublist A.flatten := by
  apply (sublist_of_heads h).trans
  cases A with
  | nil => exact Sublist.refl _
  | cons a A => exact sublist_append_right _ _

variable [LinearOrder κ]

theorem head_le (hsorted : l.Pairwise (· < ·)) (hhead : l.head? = some k) (hx : x ∈ l) : k ≤ x := by
  cases l with
  | nil => cases hhead
  | cons y l =>
    cases hhead
    rcases mem_cons.1 hx with rfl | hx
    · exact le_rfl
    · exact ((pairwise_cons.1 hsorted).1 x hx).le

theorem exists_gt (hK : A.length = K.length) (h : Guides K (A ++ [l]))
    (hsorted : (A ++ [l]).flatten.Pairwise (· < ·)) (hx : x ∈ A.flatten) : ∃ k ∈ K, x < k := by
  induction A generalizing K with
  | nil => cases hx
  | cons a A ih =>
    cases K with
    | nil => cases hK
    | cons k K =>
      rw [cons_append, flatten_cons, pairwise_append] at hsorted
      have hguides : some k :: K.map some = (A ++ [l]).map head? := h
      rw [flatten_cons, mem_append] at hx
      rcases hx with hx | hx
      · -- the separator behind `a` is the first key of the next list
        rcases hA : A ++ [l] with _ | ⟨b, rest⟩
        · simp at hA
        · rw [hA] at hguides hsorted
          have hhead : b.head? = some k := (cons_eq_cons.1 hguides).1.symm
          refine ⟨k, mem_cons_self, hsorted.2.2 x hx k ?_⟩
          exact mem_append_left _ (mem_of_head? hhead)
      · have hguides' : Guides K (A ++ [l]) := by
          rcases hA : A ++ [l] with _ | ⟨b, rest⟩
          · simp at hA
          · rw [hA] at hguides
            exact (cons_eq_cons.1 hguides).2
        rcases ih (by simpa using hK) hguides' hsorted.2.1 hx with ⟨k', hk', hlt⟩
        exact ⟨k', mem_cons_of_mem _ hk', hlt⟩

theorem le_of_mem (h : Guides K (A ++ [l])) (hsorted : (A ++ [l]).flatten.Pairwise (· < ·))
    (hk : k ∈ K) (hx : x ∈ l) : k ≤ x := by
  have hmem : some k ∈ (A ++ [l]).tail.map head? := by
    rw [← h]
    exact mem_map_of_mem hk
  rcases mem_map.1 hmem with ⟨m, hm, hhead⟩
  rw [flatten_append, flatten_singleton, pairwise_append] at hsorted
  rcases mem_append.1 (mem_of_mem_tail hm) with hm | hm
  · exact (hsorted.2.2 k (mem_flatten.2 ⟨m, hm, mem_of_head? hhead⟩) x hx).le
  · rw [mem_singleton.1 hm] at hhead
    exact head_le hsorted.2.1 hhead hx

theorem exists_le (hback : J.map some = B.map head?) (hsorted : B.flatten.Pairwise (· < ·))
    (hx : x ∈ B.flatten) : ∃ k ∈ J, k ≤ x := by
  rcases mem_flatten.1 hx with ⟨b, hb, hxb⟩
  have hmem : b.head? ∈ J.map some := by
    rw [hback]
    exact mem_map_of_mem hb
  rcases mem_map.1 hmem with ⟨k, hk, hhead⟩
  exact ⟨k, hk, head_le ((pairwise_flatten.1 hsorted).1 b hb) hhead.symm hxb⟩

end Guides
end SystemsLab
