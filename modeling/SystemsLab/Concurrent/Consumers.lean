import SystemsLab.Concurrent.Outline

/-!
# Who waits for the last item

Consumers take items under one mutex and wait for more.  Nobody is left in the wait for good if a
consumer starts to wait only where it has seen that there is more to come, and the last item is
taken while nobody waits.
-/

namespace SystemsLab.Concurrent

variable {D P I : Type*}

structure Consumers (D P : Type*) where
  total : Nat
  isConsumer : Nat → Prop
  consumed : D → Nat
  waiters : D → List Nat
  inside : P → Bool
  consuming : P → Bool
  /-- The consumer has seen in this critical section that there is more to come. -/
  sawMore : P → Bool
  /-- The consumer may be among the waiters. -/
  waits : P → Bool
  /-- The consumer is among the waiters, woken or not. -/
  listed : P → Bool
  takes : P → Bool
  inside_of_takes : ∀ p, takes p = true → inside p = true
  inside_of_sawMore : ∀ p, sawMore p = true → inside p = true
  consuming_of_waits : ∀ p, waits p = true → consuming p = true

namespace Consumers

/-- What a step of thread `th` from `p` to `p'` may do. -/
structure Effect (V : Consumers D P) (th : Nat) (d : D) (p : P) (d' : D) (p' : P) : Prop where
  consuming : V.consuming p' → V.consuming p ∨ V.isConsumer th
  sawMore : V.sawMore p' →
    V.consumed d' = V.consumed d ∧ (V.sawMore p ∨ V.listed p) ∨ V.consumed d' < V.total
  /-- The thread waits because it did or because there is more to come. -/
  waits : th ∈ V.waiters d' → th ∈ V.waiters d ∧ V.waits p' = V.waits p ∨ V.sawMore p ∧ V.waits p'
  listed : V.listed p' → V.listed p ∧ V.waiters d' = V.waiters d ∨ th ∈ V.waiters d'
  fewer : ∀ u ≠ th, u ∈ V.waiters d' → u ∈ V.waiters d
  stay : ∀ u ≠ th, ∀ q, V.listed q → u ∈ V.waiters d → u ∈ V.waiters d'
  consumed : V.consumed d' = V.consumed d ∨
    V.takes p ∧ V.consumed d' = V.consumed d + 1 ∧ V.waiters d' = V.waiters d

/-- What is known of the waiters at all times. -/
structure Waiters (V : Consumers D P) (d : D) : Prop where
  consumers : ∀ u ∈ V.waiters d, V.isConsumer u
  noneLeft : V.total ≤ V.consumed d → V.waiters d = []

/-- What thread `th` knows at the program point `p`. -/
structure At (V : Consumers D P) (th : Nat) (d : D) (p : P) : Prop where
  role : V.consuming p → V.isConsumer th
  more : V.sawMore p → V.consumed d < V.total
  waits : th ∈ V.waiters d → V.waits p
  listed : V.listed p → th ∈ V.waiters d

variable {V : Consumers D P} {th u : Nat} {d d' : D} {p p' q : P}

theorem Effect.same (hconsuming : V.consuming p' → V.consuming p ∨ V.isConsumer th)
    (hsawMore : V.sawMore p' → V.sawMore p ∨ V.consumed d < V.total)
    (hwaits : V.waits p' = V.waits p) (hlisted : V.listed p' = V.listed p)
    (hconsumed : V.consumed d' = V.consumed d) (hwaiters : V.waiters d' = V.waiters d) :
    V.Effect th d p d' p' where
  consuming := hconsuming
  sawMore h := (hsawMore h).imp (fun h => ⟨hconsumed, .inl h⟩) (hconsumed ▸ ·)
  waits h := .inl ⟨hwaiters ▸ h, hwaits⟩
  listed h := .inl ⟨hlisted ▸ h, hwaiters⟩
  fewer _ _ h := hwaiters ▸ h
  stay _ _ _ _ h := hwaiters ▸ h
  consumed := .inl hconsumed

theorem Waiters.lt_total (h : Waiters V d) (hmem : u ∈ V.waiters d) : V.consumed d < V.total := by
  by_contra hdone
  rw [h.noneLeft (Nat.not_lt.1 hdone)] at hmem
  cases hmem

theorem Effect.at (h : V.Effect th d p d' p') (hinv : Waiters V d) (hat : At V th d p) :
    At V th d' p' where
  role hc := (h.consuming hc).elim hat.role id
  more hc := by
    rcases h.sawMore hc with ⟨heq, hsaw | hlisted⟩ | hlt
    · exact heq ▸ hat.more hsaw
    · exact heq ▸ hinv.lt_total (hat.listed hlisted)
    · exact hlt
  waits hmem := by
    rcases h.waits hmem with ⟨hold, heq⟩ | ⟨-, hwaits⟩
    · exact heq.trans (hat.waits hold)
    · exact hwaits
  listed hc := by
    rcases h.listed hc with ⟨hlisted, heq⟩ | hmem
    · exact heq ▸ hat.listed hlisted
    · exact hmem

theorem Effect.waiters (h : V.Effect th d p d' p') (hinv : Waiters V d) (hat : At V th d p)
    (hok : V.takes p → V.total ≤ V.consumed d + 1 → V.waiters d = []) : Waiters V d' where
  consumers u hu := by
    rcases eq_or_ne u th with rfl | huth
    · have hat' := h.at hinv hat
      exact hat'.role (V.consuming_of_waits p' (hat'.waits hu))
    · exact hinv.consumers u (h.fewer u huth hu)
  noneLeft hdone := by
    rcases h.consumed with heq | ⟨htakes, heq, hwaiters⟩
    · -- nobody waited, and the thread has not seen that there is more to come
      rw [heq] at hdone
      refine List.eq_nil_iff_forall_not_mem.2 fun u hu => Nat.not_lt.2 hdone ?_
      rcases eq_or_ne u th with rfl | huth
      · rcases h.waits hu with ⟨hold, -⟩ | ⟨hsaw, -⟩
        · exact hinv.lt_total hold
        · exact hat.more hsaw
      · exact hinv.lt_total (h.fewer u huth hu)
    · rw [hwaiters]
      exact hok htakes (heq ▸ hdone)

theorem Effect.frame (h : V.Effect th d p d' p') (hu : u ≠ th)
    (houtside : V.inside p = true → V.inside q = false) (hat : At V u d q) : At V u d' q where
  role := hat.role
  more hsaw := by
    rcases h.consumed with heq | ⟨hp, -⟩
    · exact heq ▸ hat.more hsaw
    · exact absurd (V.inside_of_sawMore q hsaw) (by simp [houtside (V.inside_of_takes p hp)])
  waits hmem := hat.waits (h.fewer u hu hmem)
  listed hc := h.stay u hu q hc (hat.listed hc)

variable {code : P → Instr Unit D P I} {ok : Nat → I → D → P → Prop}

/-- What is known of the threads of a program whose steps have such effects. -/
def sections (V : Consumers D P) (hlock : ∀ {p m mark next}, code p = .lock m mark next →
      V.inside p = false ∧ V.inside next = true ∧ ∀ th d, V.Effect th d p (mark th d) next)
    (hunlock : ∀ {p m next}, code p = .unlock m next →
      V.inside p = true ∧ V.inside next = false ∧ ∀ th d, V.Effect th d p d next)
    (hact : ∀ {th i own d p f d' p'}, code p = .act f → f th i own d = some (d', p') →
      V.inside p' = V.inside p ∧ V.Effect th d p d' p')
    (hok : ∀ {th i d p}, ok th i d p → V.takes p → V.total ≤ V.consumed d + 1 → V.waiters d = []) :
    Sections code ok where
  within := Sections.only V.inside
  inv := V.Waiters
  loc := V.At
  lock_within hcode :=
    ⟨Sections.only_eq_none.2 (hlock hcode).1, Sections.only_eq_some.2 (hlock hcode).2.1⟩
  unlock_within hcode :=
    ⟨Sections.only_eq_some.2 (hunlock hcode).1, Sections.only_eq_none.2 (hunlock hcode).2.1⟩
  act_within hcode hf := by rw [Sections.only, Sections.only, (hact hcode hf).1]
  lock_loc hcode hinv hat := by
    rcases hlock hcode with ⟨hp, -, heffect⟩
    refine ⟨(heffect _ _).waiters hinv hat fun htakes => ?_, (heffect _ _).at hinv hat⟩
    simp [V.inside_of_takes _ htakes] at hp
  lock_frame hcode _ _ hu _ hat := by
    rcases hlock hcode with ⟨hp, -, heffect⟩
    exact (heffect _ _).frame hu (by simp [hp]) hat
  unlock_loc hcode hinv hat := ((hunlock hcode).2.2 _ _).at hinv hat
  act_loc hcode hcond hf hinv hat :=
    ⟨(hact hcode hf).2.waiters hinv hat (hok hcond), (hact hcode hf).2.at hinv hat⟩
  act_frame hcode _ hf _ _ hu hdisjoint hat :=
    (hact hcode hf).2.frame hu (Sections.outside_of_only hdisjoint) hat

theorem At.waiters_eq_nil (hone : ∀ u v, V.isConsumer u → V.isConsumer v → u = v)
    (hinv : Waiters V d)
    (hat : At V th d p) (hconsuming : V.consuming p) (hwaits : V.waits p = false) :
    V.waiters d = [] := by
  refine List.eq_nil_iff_forall_not_mem.2 fun u hmem => ?_
  obtain rfl := hone u th (hinv.consumers u hmem) (hat.role hconsuming)
  simp [hat.waits hmem] at hwaits

end Consumers

end SystemsLab.Concurrent
