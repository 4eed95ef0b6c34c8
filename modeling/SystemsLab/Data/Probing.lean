import Mathlib.Data.Fin.Basic
import Mathlib.Data.Nat.ModEq

/-!
# Searching an array slot by slot from the hash of a key

```
i = hash(key);
while (!stop(i)) { i = (i + 1) % n; if (i == hash(key)) fail; }
```

- `probe` — the loop; `probe_eq_some_iff` and `probe_eq_none_iff` say where it stops;
- `find` — the slot in which a search finds a key: the search goes over deleted slots and stops at
  an empty one;
- `Reachable` — no slot with a key has an empty one before it on the way from the hash of the key.
-/

namespace SystemsLab.Probing

open Function Option

variable {n : Nat} [NeZero n]

/-! ## The loop -/

/-- The first slot from `i` on that stops the search, with the number of slots still to visit. -/
def probe (stop : Fin n → Bool) : Nat → Fin n → Option (Fin n)
  | 0, _ => none
  | steps + 1, i => if stop i then some i else probe stop steps (i + 1)

def slotAt (start : Fin n) (d : Nat) : Fin n := start + Fin.ofNat n d

def distance (start j : Fin n) : Nat := (j - start : Fin n)

/-- A search from `start` comes to `i` before it comes to `j`. -/
def Before (start i j : Fin n) : Prop := distance start i < distance start j

section Loop

variable {stop : Fin n → Bool} {start i j : Fin n} {d e : Nat}

theorem val_slotAt (start : Fin n) (d : Nat) : (slotAt start d : Nat) = (start + d) % n := by
  rw [slotAt, Fin.val_add, Fin.val_ofNat, Nat.add_mod_mod]

@[simp] theorem slotAt_zero (start : Fin n) : slotAt start 0 = start := by
  apply Fin.ext
  rw [val_slotAt, add_zero, Nat.mod_eq_of_lt start.isLt]

theorem slotAt_succ (start : Fin n) (d : Nat) : slotAt (start + 1) d = slotAt start (d + 1) := by
  apply Fin.ext
  rw [val_slotAt, val_slotAt, Fin.val_add, Fin.val_one', Nat.add_mod_mod,
    Nat.mod_add_mod, add_assoc,
    add_comm 1 d]

omit [NeZero n] in
theorem distance_lt (start j : Fin n) : distance start j < n := (j - start).isLt

theorem slotAt_distance (start j : Fin n) : slotAt start (distance start j) = j := by
  apply Fin.ext
  have hstart := start.isLt
  have hj := j.isLt
  rw [val_slotAt, distance, Fin.sub_def]
  simp only [Nat.add_mod_mod]
  rw [← add_assoc, Nat.add_sub_cancel' hstart.le, Nat.add_mod_left, Nat.mod_eq_of_lt hj]

theorem distance_slotAt (start : Fin n) (hd : d < n) : distance start (slotAt start d) = d := by
  have heq := congrArg Fin.val (slotAt_distance start (slotAt start d))
  rw [val_slotAt, val_slotAt] at heq
  have hmod : Nat.ModEq n (distance start (slotAt start d)) d :=
    Nat.ModEq.add_left_cancel' start heq
  exact hmod.eq_of_lt_of_lt (distance_lt _ _) hd

omit [NeZero n] in
theorem Before.ne (h : Before start i j) : i ≠ j := by
  rintro rfl
  exact lt_irrefl _ h

theorem before_or_before (start : Fin n) (h : i ≠ j) : Before start i j ∨ Before start j i := by
  rcases lt_trichotomy (distance start i) (distance start j) with hlt | heq | hgt
  · exact .inl hlt
  · have hslots := congrArg (slotAt start) heq
    rw [slotAt_distance, slotAt_distance] at hslots
    exact absurd hslots h
  · exact .inr hgt

/-- The loop visits its slots in order, up to the first one that stops it. -/
theorem probe_cases (stop : Fin n → Bool) (steps : Nat) (start : Fin n) :
    (probe stop steps start = none ∧ ∀ e < steps, stop (slotAt start e) = false) ∨
      ∃ d < steps, probe stop steps start = some (slotAt start d) ∧ stop (slotAt start d) = true ∧
        ∀ e < d, stop (slotAt start e) = false := by
  induction steps generalizing start with
  | zero => exact .inl ⟨rfl, fun e he => absurd he (Nat.not_lt_zero e)⟩
  | succ steps ih =>
    by_cases hstop : stop start = true
    · refine .inr ⟨0, Nat.succ_pos _, ?_, ?_, fun e he => absurd he (Nat.not_lt_zero e)⟩
      · rw [probe, if_pos hstop, slotAt_zero]
      · rw [slotAt_zero, hstop]
    · -- the first slot is passed, and the others are those of the loop from the next one
      have hfirst : ∀ e, (∀ e', e = e' + 1 → stop (slotAt (start + 1) e') = false) →
          stop (slotAt start e) = false := by
        intro e hrest
        cases e with
        | zero =>
          rw [slotAt_zero]
          exact Bool.eq_false_iff.2 hstop
        | succ e =>
          rw [← slotAt_succ]
          exact hrest e rfl
      rw [probe, if_neg hstop]
      rcases ih (start + 1) with ⟨hnone, hpassed⟩ | ⟨d, hd, hsome, hat, hpassed⟩
      · refine .inl ⟨hnone, fun e he => hfirst e ?_⟩
        rintro e' rfl
        exact hpassed e' (Nat.lt_of_succ_lt_succ he)
      · rw [slotAt_succ] at hsome hat
        refine .inr ⟨d + 1, Nat.succ_lt_succ hd, hsome, hat, fun e he => hfirst e ?_⟩
        rintro e' rfl
        exact hpassed e' (Nat.lt_of_succ_lt_succ he)

theorem probe_eq_none_iff : probe stop n start = none ↔ ∀ i, stop i = false := by
  rcases probe_cases stop n start with ⟨hnone, hpassed⟩ | ⟨d, -, hsome, hat, -⟩
  · refine ⟨fun _ i => ?_, fun _ => hnone⟩
    rw [← slotAt_distance start i]
    exact hpassed _ (distance_lt _ _)
  · constructor
    · intro hnone
      rw [hsome] at hnone
      cases hnone
    · intro hall
      rw [hall] at hat
      cases hat

theorem probe_eq_some_iff : probe stop n start = some j ↔ stop j = true ∧ ∀ i, Before start i j →
    stop i = false := by
  rcases probe_cases stop n start with ⟨hnone, hpassed⟩ | ⟨d, hd, hsome, hat, hpassed⟩
  · constructor
    · intro hsome
      rw [hnone] at hsome
      cases hsome
    · rintro ⟨hj, -⟩
      have hpass := hpassed _ (distance_lt start j)
      rw [slotAt_distance, hj] at hpass
      cases hpass
  · have hbefore : ∀ i, distance start i < d → stop i = false := by
      intro i hi
      rw [← slotAt_distance start i]
      exact hpassed _ hi
    rw [hsome, Option.some.injEq]
    constructor
    · rintro rfl
      refine ⟨hat, fun i hi => hbefore i ?_⟩
      rwa [Before, distance_slotAt start hd] at hi
    · rintro ⟨hj, hfirst⟩
      -- neither of the two slots can come before the other
      by_contra hne
      rcases before_or_before start hne with hlt | hlt
      · rw [hfirst _ hlt] at hat
        cases hat
      · rw [Before, distance_slotAt start hd] at hlt
        rw [hbefore j hlt] at hj
        cases hj

end Loop

/-! ## Keys in slots -/

/-- What a search sees of a slot. -/
inductive Cell (κ : Type*) where
  | empty
  | deleted
  | key (k : κ)
  deriving DecidableEq

variable {κ : Type*} [DecidableEq κ]

/-- The slot in which the search for a key finds it. -/
def find (hash : κ → Fin n) (cells : Fin n → Cell κ) (k : κ) : Option (Fin n) :=
  (probe (fun i => cells i = .empty ∨ cells i = .key k) n (hash k)).filter fun i => cells i = .key k

/-- A search for a key that is in a slot does not meet an empty slot before. -/
def Reachable (hash : κ → Fin n) (cells : Fin n → Cell κ) : Prop :=
  ∀ k j, cells j = .key k → ∀ i, Before (hash k) i j → cells i ≠ .empty

def Distinct (cells : Fin n → Cell κ) : Prop :=
  ∀ k i j, cells i = .key k → cells j = .key k → i = j

section Cells

variable {hash : κ → Fin n} {cells : Fin n → Cell κ} {k k' : κ} {i j p : Fin n}

theorem find_eq_some_iff : find hash cells k = some j ↔
    cells j = .key k ∧ ∀ i, Before (hash k) i j → cells i ≠ .empty ∧ cells i ≠ .key k := by
  rw [find, filter_eq_some_iff, probe_eq_some_iff]
  simp only [decide_eq_true_eq, decide_eq_false_iff_not, not_or]
  constructor
  · rintro ⟨⟨-, hfirst⟩, hj⟩
    exact ⟨hj, hfirst⟩
  · rintro ⟨hj, hfirst⟩
    exact ⟨⟨.inr hj, hfirst⟩, hj⟩

theorem Reachable.find_eq_none_iff (h : Reachable hash cells) :
    find hash cells k = none ↔ ∀ j, cells j ≠ .key k := by
  constructor
  · intro hnone j hj
    -- the first slot with the key would be found
    cases hprobe : probe (fun i => decide (cells i = .key k)) n (hash k) with
    | none =>
      have hnowhere := probe_eq_none_iff.1 hprobe j
      exact (of_decide_eq_false hnowhere) hj
    | some first =>
      rcases probe_eq_some_iff.1 hprobe with ⟨hfirst, hbefore⟩
      have hkey := of_decide_eq_true hfirst
      have hfound : find hash cells k = some first := find_eq_some_iff.2
        ⟨hkey, fun i hi => ⟨h k first hkey i hi, of_decide_eq_false (hbefore i hi)⟩⟩
      rw [hnone] at hfound
      cases hfound
  · intro hnowhere
    rw [eq_none_iff_forall_ne_some]
    intro j hj
    exact hnowhere j (find_eq_some_iff.1 hj).1

/-- A search sees of the cells only which are empty and which hold its key. -/
theorem Reachable.find_congr {cells' : Fin n → Cell κ} (h : Reachable hash cells)
    (h' : Reachable hash cells') (hkey : ∀ i, cells' i = .key k ↔ cells i = .key k) :
    find hash cells' k = find hash cells k := by
  cases hfind : find hash cells k with
  | none =>
    rw [h.find_eq_none_iff] at hfind
    exact h'.find_eq_none_iff.2 fun j hj => hfind j ((hkey j).1 hj)
  | some j =>
    rcases find_eq_some_iff.1 hfind with ⟨hj, hbefore⟩
    have hj' := (hkey j).2 hj
    refine find_eq_some_iff.2 ⟨hj', fun i hi => ⟨h' k j hj' i hi, fun hi' => ?_⟩⟩
    exact (hbefore i hi).2 ((hkey i).1 hi')

omit [NeZero n] [DecidableEq κ] in
theorem Reachable.put (h : Reachable hash cells)
    (hp : ∀ i, Before (hash k) i p → cells i ≠ .empty) :
    Reachable hash (update cells p (.key k)) := by
  intro k' j hj i hi
  by_cases hip : i = p
  · rw [hip, update_self]
    exact nofun
  · rw [update_of_ne hip]
    by_cases hjp : j = p
    · rw [hjp, update_self] at hj
      cases hj
      exact hp i (hjp ▸ hi)
    · rw [update_of_ne hjp] at hj
      exact h k' j hj i hi

theorem find_put_self (hp : ∀ i, Before (hash k) i p → cells i ≠ .empty ∧ cells i ≠ .key k) :
    find hash (update cells p (.key k)) k = some p := by
  refine find_eq_some_iff.2 ⟨update_self .., fun i hi => ?_⟩
  rw [update_of_ne hi.ne]
  exact hp i hi

section

variable (h : Reachable hash cells)

include h

/-- The other keys are found where they were, unless one was found in that slot. -/
theorem Reachable.find_put_of_ne
    (hp : ∀ i, Before (hash k) i p → cells i ≠ .empty) (hk : k' ≠ k) (hother : cells p ≠ .key k') :
    find hash (update cells p (.key k)) k' = find hash cells k' := by
  refine h.find_congr (h.put hp) fun i => ?_
  by_cases hip : i = p
  · rw [hip, update_self]
    exact ⟨fun heq => absurd (Cell.key.inj heq).symm hk, fun heq => absurd heq hother⟩
  · rw [update_of_ne hip]

omit [NeZero n] [DecidableEq κ] in
theorem Reachable.take (p : Fin n) : Reachable hash (update cells p .deleted) := by
  intro k j hj i hi
  by_cases hip : i = p
  · rw [hip, update_self]
    exact nofun
  · rw [update_of_ne hip]
    by_cases hjp : j = p
    · rw [hjp, update_self] at hj
      cases hj
    · rw [update_of_ne hjp] at hj
      exact h k j hj i hi

theorem Reachable.find_take_of_ne (hp : cells p ≠ .key k) :
    find hash (update cells p .deleted) k = find hash cells k := by
  refine h.find_congr (h.take p) fun i => ?_
  by_cases hip : i = p
  · rw [hip, update_self]
    exact ⟨nofun, fun heq => absurd heq hp⟩
  · rw [update_of_ne hip]

/-- A key that was in one slot only is not found any more. -/
theorem Reachable.find_take_self (honly : ∀ j, cells j = .key k → j = p) :
    find hash (update cells p .deleted) k = none := by
  refine (h.take p).find_eq_none_iff.2 fun j hj => ?_
  by_cases hjp : j = p
  · rw [hjp, update_self] at hj
    cases hj
  · rw [update_of_ne hjp] at hj
    exact hjp (honly j hj)

end

omit [NeZero n] [DecidableEq κ] in
theorem Distinct.put (h : Distinct cells) (honly : ∀ j, cells j = .key k → j = p) :
    Distinct (update cells p (.key k)) := by
  intro k' i j hi hj
  by_cases hk : k' = k
  · have hthere : ∀ j, update cells p (.key k) j = .key k' → j = p := by
      intro j hj
      by_contra hjp
      rw [update_of_ne hjp, hk] at hj
      exact hjp (honly j hj)
    rw [hthere i hi, hthere j hj]
  · have hold : ∀ j, update cells p (.key k) j = .key k' → cells j = .key k' := by
      intro j hj
      by_cases hjp : j = p
      · rw [hjp, update_self] at hj
        exact absurd (Cell.key.inj hj).symm hk
      · rwa [update_of_ne hjp] at hj
    exact h k' i j (hold i hi) (hold j hj)

omit [NeZero n] [DecidableEq κ] in
theorem Distinct.take (h : Distinct cells) (p : Fin n) : Distinct (update cells p .deleted) := by
  intro k i j hi hj
  have hold : ∀ j, update cells p .deleted j = .key k → cells j = .key k := by
    intro j hj
    by_cases hjp : j = p
    · rw [hjp, update_self] at hj
      cases hj
    · rwa [update_of_ne hjp] at hj
  exact h k i j (hold i hi) (hold j hj)

end Cells

/-! ## Keys with values -/

/-- A table with a key and a value in each slot represents a map. -/
structure Represents {ν : Type*} (hash : κ → Fin n) (cells : Fin n → Cell κ) (values : Fin n → ν)
    (m : κ → Option ν) : Prop where
  reachable : Reachable hash cells
  lookup : ∀ k, (find hash cells k).map values = m k

section Values

variable {ν : Type*} {hash : κ → Fin n} {cells : Fin n → Cell κ} {values : Fin n →
  ν} {m : κ → Option ν}
  {k : κ} {p : Fin n}

theorem represents_empty (hash : κ → Fin n) (values : Fin n → ν) (hempty : ∀ i, cells i = .empty) :
    Represents hash cells values fun _ => none := by
  have hnowhere : ∀ k j, cells j ≠ .key k := by
    intro k j hj
    rw [hempty] at hj
    cases hj
  have hreachable : Reachable hash cells := fun k j hj => absurd hj (hnowhere k j)
  refine ⟨hreachable, fun k => ?_⟩
  rw [hreachable.find_eq_none_iff.2 (hnowhere k), map_none]

omit [NeZero n] in
theorem map_update_of_ne {found : Option (Fin n)} (h : found ≠ some p) (v : ν) :
    found.map (update values p v) = found.map values := by
  cases found with
  | none => rfl
  | some j =>
    have hj : j ≠ p := fun heq => h (congrArg some heq)
    rw [map_some, map_some, update_of_ne hj]

theorem Represents.put (h : Represents hash cells values m)
    (hbefore : ∀ i, Before (hash k) i p → cells i ≠ .empty ∧ cells i ≠ .key k)
    (hplace : ∀ k', cells p = .key k' → k' = k) (v : ν) :
    Represents hash (update cells p (.key k)) (update values p v) (update m k (some v)) := by
  have hclear : ∀ i, Before (hash k) i p → cells i ≠ .empty := fun i hi => (hbefore i hi).1
  refine ⟨h.reachable.put hclear, fun k' => ?_⟩
  by_cases hk : k' = k
  · rw [hk, update_self, find_put_self hbefore, map_some, update_self]
  · have hother : cells p ≠ .key k' := fun hp => hk (hplace k' hp)
    rw [update_of_ne hk, h.reachable.find_put_of_ne hclear hk hother, map_update_of_ne, h.lookup]
    exact fun hfind => hother (find_eq_some_iff.1 hfind).1

theorem Represents.take (h : Represents hash cells values m) (hp : cells p = .key k)
    (honly : ∀ j, cells j = .key k → j = p) :
    Represents hash (update cells p .deleted) values (update m k none) := by
  refine ⟨h.reachable.take p, fun k' => ?_⟩
  by_cases hk : k' = k
  · rw [hk, update_self, h.reachable.find_take_self honly, map_none]
  · have hother : cells p ≠ .key k' := by
      rw [hp]
      exact fun heq => hk (Cell.key.inj heq).symm
    rw [update_of_ne hk, h.reachable.find_take_of_ne hother, h.lookup]

theorem Represents.erase_of_find_eq_none (h : Represents hash cells values m)
    (hfind : find hash cells k = none) : Represents hash cells values (update m k none) := by
  have hnone : m k = none := by rw [← h.lookup, hfind, map_none]
  rwa [← hnone, update_eq_self]

end Values

end SystemsLab.Probing
