import Mathlib.Data.Finset.Sort

/-!
# Finite sequences of calls and what they mean

A data structure is driven by a list of calls.  Each call may fail (a bad pointer, an index out of
range), so a run is a fold in `Option`.

- `runCalls_simulates` — a call that simulates its specification gives runs that do;
- `guarded` — every call is made where a condition allows it; `guarded_iff_good` — when that is
  exactly what keeps the results good.
-/

namespace SystemsLab.CallSequence

open List Option

variable {σ τ ι κ : Type*}

/-- The state after the calls `calls`, if none of them fails. -/
def runCalls (call : σ → ι → Option σ) : σ → List ι → Option σ
  | s, [] => some s
  | s, c :: calls => (call s c).bind fun s' => runCalls call s' calls

theorem runCalls_append (call : σ → ι → Option σ) (s : σ) (calls calls' : List ι) :
    runCalls call s (calls ++ calls') = (runCalls call s calls).bind fun s' =>
      runCalls call s' calls' := by
  induction calls generalizing s with
  | nil => rfl
  | cons c calls ih =>
    rw [cons_append, runCalls, runCalls, bind_assoc]
    congr 1
    funext s'
    exact ih s'

variable {call : σ → ι → Option σ} {s s' : σ} {ok : σ → ι → Bool} {c : ι} {calls made : List ι}
  {P : σ → Prop}

/-- A relation that every call carries along, without failing, is carried along by every run. -/
theorem runCalls_simulates (spec : τ → ι → τ) {R : σ → τ → Prop}
    (hcall : ∀ s t c, R s t → ∃ s', call s c = some s' ∧ R s' (spec t c)) {t : τ} (h : R s t)
    (calls : List ι) :
    ∃ s', runCalls call s calls = some s' ∧ R s' (calls.foldl spec t) := by
  induction calls generalizing s t with
  | nil => exact ⟨s, rfl, h⟩
  | cons c calls ih =>
    rcases hcall s t c h with ⟨s1, hs1, h1⟩
    rcases ih h1 with ⟨s2, hs2, h2⟩
    refine ⟨s2, ?_, h2⟩
    simp [runCalls, hs1, hs2]

theorem runCalls_invariant (hcall : ∀ s c, P s → ∃ s', call s c = some s' ∧ P s') (h : P s)
    (calls : List ι) :
    ∃ s', runCalls call s calls = some s' ∧ P s' := by
  apply runCalls_simulates (fun (u : Unit) (_ : ι) => u) (R := fun s _ => P s) (t := ()) _ h calls
  intro s _ c hs
  exact hcall s c hs

/-- The rule for a relation between the state, the calls made and the calls to come. -/
theorem runCalls_along {R : σ → List ι → List ι → Prop}
    (hcall : ∀ s made c rest, R s made (c :: rest) →
      ∃ s', call s c = some s' ∧ R s' (made ++ [c]) rest)
    (calls : List ι) (h : R s made calls) :
    ∃ s', runCalls call s calls = some s' ∧ R s' (made ++ calls) [] := by
  induction calls generalizing s made with
  | nil => exact ⟨s, rfl, by rwa [append_nil]⟩
  | cons c calls ih =>
    rcases hcall s made c calls h with ⟨s1, hs1, h1⟩
    rcases ih h1 with ⟨s2, hs2, h2⟩
    refine ⟨s2, by simp [runCalls, hs1, hs2], ?_⟩
    rwa [append_assoc] at h2

/-- The same rule for calls that may fail, in a run that does not. -/
theorem runCalls_kept_along {R : σ → List ι → List ι → Prop}
    (hcall : ∀ s made c rest s', R s made (c :: rest) → call s c = some s' →
      R s' (made ++ [c]) rest)
    (h : R s made calls) (hrun : runCalls call s calls = some s') : R s' (made ++ calls) [] := by
  induction calls generalizing s made with
  | nil =>
    cases hrun
    rwa [append_nil]
  | cons c calls ih =>
    rcases bind_eq_some_iff.1 hrun with ⟨s1, hs1, hrest⟩
    have h2 := ih (hcall s made c calls s1 h hs1) hrest
    rwa [append_assoc] at h2

/-- Every call of the run is made in a state where `ok` allows it. -/
def guarded (call : σ → ι → Option σ) (ok : σ → ι → Bool) : σ → List ι → Bool
  | _, [] => true
  | s, c :: calls => ok s c && ((call s c).map fun s' => guarded call ok s' calls).getD true

theorem guarded_head (h : guarded call ok s (c :: calls)) : ok s c := by
  rw [guarded, Bool.and_eq_true] at h
  exact h.1

theorem guarded_cons (h : guarded call ok s (c :: calls)) (hs' : call s c = some s') :
    guarded call ok s' calls := by
  rw [guarded, Bool.and_eq_true, hs'] at h
  exact h.2

theorem guarded_true (call : σ → ι → Option σ) (s : σ) (calls : List ι) :
    guarded call (fun _ _ => true) s calls := by
  induction calls generalizing s with
  | nil => rfl
  | cons c calls ih =>
    cases hs : call s c with
    | none => simp [guarded, hs]
    | some s' => simpa [guarded, hs] using ih s'

/-- A property that every allowed call keeps unless it fails holds after every run of such calls
that does not fail. -/
theorem runCalls_kept_guarded (hcall : ∀ s c s', P s → ok s c → call s c = some s' → P s') (h : P s)
    (hok : guarded call ok s calls) (hrun : runCalls call s calls = some s') : P s' := by
  induction calls generalizing s with
  | nil =>
    cases hrun
    exact h
  | cons c calls ih =>
    rcases bind_eq_some_iff.1 hrun with ⟨s1, hs1, hrest⟩
    exact ih (hcall s c s1 h (guarded_head hok) hs1) (guarded_cons hok hs1) hrest

theorem runCalls_kept (hcall : ∀ s c s', P s → call s c = some s' → P s') (h : P s)
    (hrun : runCalls call s calls = some s') : P s' :=
  runCalls_kept_guarded (fun s c s' hs _ => hcall s c s' hs) h (guarded_true call s calls) hrun

theorem guarded_of_beginning
    (h : guarded call ok s calls) (hmade : made <+: calls) : guarded call ok s made := by
  rcases hmade with ⟨rest, rfl⟩
  induction made generalizing s with
  | nil => rfl
  | cons c made ih =>
    cases hs : call s c with
    | none => simpa [guarded, hs] using guarded_head h
    | some s1 => simpa [guarded, hs] using ⟨guarded_head h, ih (guarded_cons h hs)⟩

/-- If a call fails where `ok` does not allow it, a run without a failure has allowed calls only. -/
theorem guarded_of_runCalls (hcall : ∀ s c s', P s → call s c = some s' → ok s c ∧ P s') (h : P s)
    (hrun : runCalls call s calls = some s') : guarded call ok s calls := by
  induction calls generalizing s with
  | nil => rfl
  | cons c calls ih =>
    rcases bind_eq_some_iff.1 hrun with ⟨s1, hs1, hrest⟩
    rcases hcall s c s1 h hs1 with ⟨hok, h1⟩
    rw [guarded, hok, hs1]
    exact ih h1 hrest

theorem runCalls_guarded {R : σ → List ι → Prop} (hcall : ∀ s made, ∀ c ∈ calls, R s made → ok s c →
      ∃ s', call s c = some s' ∧ R s' (made ++ [c]))
    (h : R s []) (hok : guarded call ok s calls) :
    ∃ s', runCalls call s calls = some s' ∧ R s' calls := by
  have hstep : ∀ s made c rest, R s made ∧ guarded call ok s (c :: rest) ∧ c :: rest ⊆ calls →
      ∃ s', call s c = some s' ∧ R s' (made ++ [c]) ∧ guarded call ok s' rest ∧ rest ⊆ calls := by
    rintro s made c rest ⟨hR, hrest, hsub⟩
    rcases hcall s made c (hsub mem_cons_self) hR (guarded_head hrest) with ⟨s', hs', hR'⟩
    exact ⟨s', hs', hR', guarded_cons hrest hs', fun d hd => hsub (mem_cons_of_mem _ hd)⟩
  rcases runCalls_along
    (R := fun s made rest => R s made ∧ guarded call ok s rest ∧ rest ⊆ calls) hstep calls
    ⟨h, hok, fun _ hc => hc⟩ with ⟨s', hs', hR, -⟩
  exact ⟨s', hs', hR⟩

theorem guarded_concat : guarded call ok s (calls ++ [c]) ↔
      guarded call ok s calls ∧ ∀ s', runCalls call s calls = some s' → ok s' c := by
  induction calls generalizing s with
  | nil =>
    cases hs : call s c with
    | none => simp [guarded, runCalls, hs]
    | some s1 => simp [guarded, runCalls, hs]
  | cons d calls ih =>
    cases hs : call s d with
    | none => simp [guarded, runCalls, hs]
    | some s1 => simp [guarded, runCalls, hs, ih, and_assoc]

/-- Where an allowed call carries `R` along, `R` gives a good result and a call that is not allowed
spoils it, the calls are allowed exactly if every beginning of the sequence gives a good result. -/
theorem guarded_iff_good {R : σ → List ι → Prop} {good : List ι → Prop} (h : R s [])
    (hcall : ∀ s made, ∀ c ∈ calls, R s made → ok s c →
      ∃ s', call s c = some s' ∧ R s' (made ++ [c]))
    (hgood : ∀ s' made, runCalls call s made = some s' → R s' made → good made)
    (hspoilt : ∀ s' made, ∀ c ∈ calls, runCalls call s made = some s' → R s' made →
      ok s' c = false →
      ¬good (made ++ [c])) : guarded call ok s calls ↔ ∀ made, made <+: calls → good made := by
  induction calls using List.reverseRecOn with
  | nil =>
    refine ⟨fun _ made hmade => ?_, fun _ => rfl⟩
    rw [prefix_nil.1 hmade]
    exact hgood s [] rfl h
  | append_singleton calls c ih =>
    have hold : ∀ d ∈ calls, d ∈ calls ++ [c] := fun d hd => mem_append_left _ hd
    have hlast : c ∈ calls ++ [c] := mem_append_right _ (mem_singleton_self c)
    have ih' := ih (fun s made d hd => hcall s made d (hold d hd))
      (fun s' made d hd => hspoilt s' made d (hold d hd))
    rw [guarded_concat, ih']
    constructor
    · rintro ⟨hall, hok⟩ made hmade
      rcases prefix_concat_iff.1 hmade with rfl | hmade
      · rcases runCalls_guarded (fun s made d hd => hcall s made d (hold d hd)) h (ih'.2 hall)
          with ⟨s1, hs1, h1⟩
        rcases hcall s1 calls c hlast h1 (hok s1 hs1) with ⟨s2, hs2, h2⟩
        refine hgood s2 _ ?_ h2
        rw [runCalls_append, hs1, bind_some, runCalls, hs2]
        rfl
      · exact hall made hmade
    · intro hall
      have hbegin : ∀ made, made <+: calls → good made := fun made hmade =>
        hall made (hmade.trans (prefix_append _ _))
      refine ⟨hbegin, fun s1 hs1 => ?_⟩
      rcases runCalls_guarded (fun s made d hd => hcall s made d (hold d hd)) h (ih'.2 hbegin)
        with ⟨s2, hs2, h2⟩
      rw [hs1] at hs2
      cases hs2
      by_contra hno
      exact hspoilt s1 calls c hlast hs1 h2 (Bool.eq_false_iff.2 hno) (hall _ (prefix_refl _))

inductive SetCall (κ : Type*) where
  | insert (key : κ)
  | delete (key : κ)
  deriving DecidableEq, Repr

variable [DecidableEq κ]

def SetCall.effect (S : Finset κ) : SetCall κ → Finset κ
  | .insert key => Insert.insert key S
  | .delete key => S.erase key

/-- The keys that were inserted and not deleted since. -/
def keySet (calls : List (SetCall κ)) : Finset κ :=
  calls.foldl SetCall.effect ∅

inductive MapCall (κ ν : Type*) where
  | insert (key : κ) (value : ν)
  | delete (key : κ)
  deriving DecidableEq

def MapCall.effect {ν : Type*} (m : κ → Option ν) : MapCall κ ν → κ → Option ν
  | .insert key value => Function.update m key (some value)
  | .delete key => Function.update m key none

/-- The value of the last insertion of a key, if it was not deleted since. -/
def mapAfter {ν : Type*} (calls : List (MapCall κ ν)) : κ → Option ν :=
  calls.foldl MapCall.effect fun _ => none

theorem mapAfter_concat {ν : Type*} (calls : List (MapCall κ ν)) (c : MapCall κ ν) :
    mapAfter (calls ++ [c]) = c.effect (mapAfter calls) := by
  rw [mapAfter, foldl_append]
  rfl

end SystemsLab.CallSequence
