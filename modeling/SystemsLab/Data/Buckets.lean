import Mathlib.Data.List.FinRange
import Mathlib.Data.List.Perm.Basic

/-!
# An array of lists as one list

A table with chaining is an array of lists.  `contents` is the list of everything in it, bucket by
bucket.  An operation works on one bucket; `exists_rest` splits the contents into that bucket and a
rest that no change of the bucket touches.
-/

namespace SystemsLab.Buckets

open List Function

variable {α : Type*} {n : Nat}

def contents (f : Fin n → List α) : List α :=
  (List.finRange n).flatMap f

variable {f : Fin n → List α} {x : α} {i : Fin n}

@[simp] theorem mem_contents : x ∈ contents f ↔ ∃ i, x ∈ f i := by
  simp [contents]

theorem exists_rest (f : Fin n → List α) (i : Fin n) :
    ∃ rest, ∀ l, (contents (update f i l)).Perm (l ++ rest) := by
  rcases append_of_mem (mem_finRange i) with ⟨before, after, hsplit⟩
  have hnodup : (before ++ i :: after).Nodup := hsplit ▸ nodup_finRange n
  rw [nodup_middle, nodup_cons, mem_append, not_or] at hnodup
  have hother : ∀ (is : List (Fin n)) (l : List α), i ∉ is →
    is.flatMap (update f i l) = is.flatMap f := by
    intro is l hi
    apply flatMap_congr
    intro j hj
    have hne : j ≠ i := fun heq => hi (heq ▸ hj)
    exact update_of_ne hne _ _
  refine ⟨before.flatMap f ++ after.flatMap f, fun l => ?_⟩
  rw [contents, hsplit, flatMap_append, flatMap_cons, update_self,
    hother before l hnodup.1.1, hother after l hnodup.1.2]
  -- the bucket moves to the front
  rw [← append_assoc, ← append_assoc]
  exact perm_append_comm.append_right _

theorem contents_perm {rest : List α} (h : ∀ l, (contents (update f i l)).Perm (l ++ rest)) :
    (contents f).Perm (f i ++ rest) := by
  have hsame := h (f i)
  rwa [update_eq_self] at hsame

theorem contents_insert (f : Fin n → List α) (i : Fin n) (x : α) :
    (contents (update f i (x :: f i))).Perm (x :: contents f) := by
  rcases exists_rest f i with ⟨rest, hrest⟩
  exact (hrest _).trans ((contents_perm hrest).symm.cons x)

theorem contents_remove {before after : List α} (h : f i = before ++ x :: after) :
    (contents f).Perm (x :: contents (update f i (before ++ after))) := by
  rcases exists_rest f i with ⟨rest, hrest⟩
  calc
    (contents f).Perm (f i ++ rest) := contents_perm hrest
    List.Perm _ (x :: (before ++ after) ++ rest) := by
      rw [h]
      exact perm_middle.append_right rest
    List.Perm _ (x :: contents (update f i (before ++ after))) := ((hrest _).symm.cons x)

end SystemsLab.Buckets
