import Mathlib.Logic.Function.Iterate

/-!
# Operators that hand out one element at a time

`Streams next pending` says that each call of `next` takes the first of the elements that are still
pending and returns it, and returns nothing once there are none.  `drain` calls `next` until then.
-/

namespace SystemsLab.PullIterator

variable {σ α : Type*} {next : σ → σ × Option α} {pending : σ → List α} {s : σ}

structure Streams (next : σ → σ × Option α) (pending : σ → List α) : Prop where
  stop : ∀ {s s'}, next s = (s', none) → pending s = [] ∧ pending s' = []
  step : ∀ {s s' a}, next s = (s', some a) → pending s = a :: pending s'

/-- The calls up to the first one that returns nothing, with what the others returned. -/
def drain (next : σ → σ × Option α) : Nat → σ → Option (σ × List α)
  | 0, _ => none
  | fuel + 1, s =>
    match next s with
    | (s', none) => some (s', [])
    | (s', some a) => (drain next fuel s').map fun r => (r.1, a :: r.2)

theorem Streams.drain_eq (h : Streams next pending) {fuel : Nat}
    (hfuel : (pending s).length < fuel) :
    ∃ s', drain next fuel s = some (s', pending s) ∧ pending s' = [] := by
  induction fuel generalizing s with
  | zero => exact absurd hfuel (Nat.not_lt_zero _)
  | succ fuel ih =>
    rcases hnext : next s with ⟨s', _ | a⟩
    · rcases h.stop hnext with ⟨hs, hs'⟩
      exact ⟨s', by simp [drain, hnext, hs], hs'⟩
    · have hs := h.step hnext
      rcases ih (by simpa [hs] using hfuel) with ⟨s'', hs'', hend⟩
      exact ⟨s'', by simp [drain, hnext, hs'', hs], hend⟩

theorem Streams.next_of_nil (h : Streams next pending) (hs : pending s = []) :
    (next s).2 = none ∧ pending (next s).1 = [] := by
  rcases hnext : next s with ⟨s', _ | a⟩
  · exact ⟨rfl, (h.stop hnext).2⟩
  · simpa [hs] using h.step hnext

theorem Streams.exhausted (h : Streams next pending) (hs : pending s = []) (n : Nat) :
    (next ((fun s => (next s).1)^[n] s)).2 = none := by
  induction n generalizing s with
  | zero => exact (h.next_of_nil hs).1
  | succ n ih => exact ih (h.next_of_nil hs).2

end SystemsLab.PullIterator
