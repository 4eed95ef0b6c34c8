import Mathlib.Data.List.Nodup
import Mathlib.Logic.Relation

/-!
# Acyclicity from an order of completion

A depth-first search that meets no edge back into its stack completes every node after all
successors of the node.  The list of completed nodes, last one first, is then *closed*: each element
has its successors behind it.  Such a list proves that there is no cycle through its elements.
-/

namespace SystemsLab.FinishOrder

open Relation List

variable {α : Type*} {r : α → α → Prop} {l : List α} {v : α}

/-- The successors of every element stand behind it. -/
def Closed (r : α → α → Prop) : List α → Prop
  | [] => True
  | v :: rest => (∀ u, r v u → u ∈ rest) ∧ Closed r rest

theorem Closed.mem_of_rel (h : Closed r l) {u : α} (hv : v ∈ l) (hr : r v u) : u ∈ l := by
  induction l with
  | nil => cases hv
  | cons x rest ih =>
    rcases mem_cons.1 hv with rfl | hv
    · exact mem_cons_of_mem _ (h.1 u hr)
    · exact mem_cons_of_mem _ (ih h.2 hv)

theorem Closed.mem_of_path (h : Closed r l) {u : α} (hv : v ∈ l) (hp : ReflTransGen r v u) :
    u ∈ l := by
  induction hp with
  | refl => exact hv
  | tail _ hr ih => exact h.mem_of_rel ih hr

theorem Closed.not_transGen_self (h : Closed r l) (hn : l.Nodup)
    (hv : v ∈ l) : ¬ TransGen r v v := by
  induction l with
  | nil => cases hv
  | cons x rest ih =>
    rcases nodup_cons.1 hn with ⟨hx, hrest⟩
    rcases mem_cons.1 hv with rfl | hv
    · -- the path leaves `v` for an element behind it and would have to come back
      intro hcycle
      rcases TransGen.head'_iff.1 hcycle with ⟨u, hvu, hback⟩
      exact hx (h.2.mem_of_path (h.1 u hvu) hback)
    · exact ih h.2 hrest hv

end SystemsLab.FinishOrder
