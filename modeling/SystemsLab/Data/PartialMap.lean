import Mathlib.Logic.Function.Basic

/-!
# One entry of a finite map is set

What is known of the entries of `update f a (some v)`: the new one, and the old ones under the other
keys.
-/

namespace SystemsLab.PartialMap

open Function

variable {α β : Type*} [DecidableEq α] {f : α → Option β} {a b : α} {v w : β}

theorem update_cases (h : update f a (some v) b = some w) :
    (b = a ∧ w = v) ∨ (b ≠ a ∧ f b = some w) := by
  by_cases hb : b = a
  · subst hb
    exact .inl ⟨rfl, by simpa [eq_comm] using h⟩
  · exact .inr ⟨hb, by simpa [hb] using h⟩

theorem update_ne_none_iff : update f a (some v) b ≠ none ↔ b = a ∨ f b ≠ none := by
  by_cases hb : b = a <;> simp [hb]

theorem update_ne_none (h : f b ≠ none) : update f a (some v) b ≠ none :=
  update_ne_none_iff.2 (.inr h)

theorem forall_update {P : α → β → Prop} (hself : P a v) (hother : ∀ b w, f b = some w → P b w) :
    ∀ b w, update f a (some v) b = some w → P b w := by
  intro b w hw
  rcases update_cases hw with ⟨rfl, rfl⟩ | ⟨-, hw⟩
  · exact hself
  · exact hother b w hw

theorem exists_update {P : β → Prop} (hself : b = a → P v) (hother : ∃ w, f b = some w ∧ P w) :
    ∃ w, update f a (some v) b = some w ∧ P w := by
  by_cases hb : b = a
  · subst hb
    exact ⟨v, update_self .., hself rfl⟩
  · rwa [update_of_ne hb]

theorem exists_update_new {P : β → Prop} (hnone : f a = none) (h : ∃ w, f b = some w ∧ P w) :
    ∃ w, update f a (some v) b = some w ∧ P w := by
  refine exists_update (fun hb => ?_) h
  rcases h with ⟨w, hw, -⟩
  rw [hb, hnone] at hw
  cases hw

end SystemsLab.PartialMap
