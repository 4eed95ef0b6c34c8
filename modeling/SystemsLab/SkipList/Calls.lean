import SystemsLab.SkipList.Insert

/-!
# The skip list as a set

A call that draws a level above that of the list is safe only if the header is the predecessor of
the key on the old top level (`keepsOrder`): `insert` overwrites the entry it recorded there.  In
every run of such calls the levels are increasing and nested, and the search answers for the set of
keys.
-/

namespace SystemsLab.SkipList

open Chain CallSequence List Option

/-- The insertion of a new key above the level of the list finds no smaller key on that level. -/
def keepsOrder (list : State) : Call → Bool
  | .insert key level _ =>
    decide (level ≤ list.level) || ((search list key).bind id).isSome ||
      (getForward list.heap list.header list.level).bind (isBefore list.heap key) == some false
  | .delete _ => true

variable {s : State} {N : List Tower} {key : Int}

theorem insert_spec (h : Holds s N) {level : Nat} (hlevel : level ≤ MAX_LEVEL)
    (hfirst : (∀ x ∈ N, x.key ≠ key) → s.level < level → ∀ x ∈ N, s.level ≤ x.height → key ≤ x.key)
    (hint : Nat) :
    ∃ s' N', insert s key level hint = some s' ∧ Holds s' N' ∧
      ∀ k, (∃ x ∈ N', x.key = k) ↔ k = key ∨ ∃ x ∈ N, x.key = k := by
  rcases exists_update h key with ⟨P, Q, update, rfl, hcut, hfind, hupdate⟩
  have hhas := hasKey_head h hcut
  by_cases hin : ∃ x ∈ P ++ Q, x.key = key
  · refine ⟨s, P ++ Q, ?_, h, fun k => ?_⟩
    · simp only [insert, hfind, next_pred h, hhas, hin, decide_true, bind_eq_bind,
        bind_some, if_true]
    · exact (or_iff_right_of_imp fun heq => heq ▸ hin).symm
  · have habsent : ∀ x ∈ P ++ Q, x.key ≠ key := fun x hx heq => hin ⟨x, hx, heq⟩
    have hpred : s.level < level → pred s.header s.level P = s.header := by
      intro hnew
      have hempty : lane s.level P = [] := by
        apply lane_eq_nil
        intro x hx
        by_contra hge
        have hle := hfirst habsent hnew x (mem_append_left _ hx) (not_lt.1 hge)
        exact absurd (hcut.low x hx) (not_lt.2 hle)
      rw [pred, hempty]
      rfl
    rcases insertNode_spec h hcut (fun x hx => habsent x (mem_append_right _ hx)) hlevel hpred
      hupdate hint with ⟨s', hrun, hholds⟩
    refine ⟨s', _, ?_, hholds, fun k => ?_⟩
    · simp only [insert, hfind, next_pred h, hhas, hin, decide_false, bind_eq_bind,
        bind_some, Bool.false_eq_true, if_false, hrun]
    · simp only [mem_append, mem_cons]
      grind

theorem delete_spec (h : Holds s N) (key : Int) :
    ∃ s', delete s key = some s' ∧ Holds s' (N.filter fun x => x.key ≠ key) ∧ s'.header = s.header ∧
      ((∀ x ∈ N, x.key ≠ key) → s' = s) ∧ ((∃ x ∈ N, x.key = key) → s'.level ≤ s.level ∧
        (s'.level = 0 ∨ lane s'.level (N.filter fun x => x.key ≠ key) ≠ [])) := by
  rcases exists_update h key with ⟨P, Q, update, rfl, hcut, hfind, hupdate⟩
  have hhas := hasKey_head h hcut
  by_cases hin : ∃ x ∈ P ++ Q, x.key = key
  · rcases (hcut.mem_iff h.sorted).1 hin with ⟨x, Q', rfl, hx⟩
    rcases deleteNode_spec h hupdate with ⟨s', hrun, hholds, hheader, hlevel⟩
    have hnext := next_pred h
    rw [head?_cons, map_some] at hnext hhas
    have hothers : ∀ y ∈ P ++ Q', decide (y.key ≠ key) = true := by
      intro y hy
      rw [decide_eq_true_eq]
      rcases pairwise_append.1 h.sorted with ⟨-, hxQ, -⟩
      rcases mem_append.1 hy with hy | hy
      · exact (hcut.low y hy).ne
      · exact (hx ▸ (pairwise_cons.1 hxQ).1 y hy).ne'
    have hrest : (P ++ x :: Q').filter (fun x => x.key ≠ key) = P ++ Q' := by
      rw [filter_append, filter_cons_of_neg (by simpa using hx), ← filter_append,
        filter_eq_self.2 hothers]
    rw [hrest]
    refine ⟨s', ?_, hholds, hheader, fun habsent => absurd hx (habsent x (by simp)),
      fun _ => hlevel⟩
    simp only [delete, hfind, hnext, hhas, hin, decide_true, bind_eq_bind, bind_some, if_true, hrun]
  · have habsent : ∀ x ∈ P ++ Q, decide (x.key ≠ key) = true := fun x hx =>
      decide_eq_true fun heq => hin ⟨x, hx, heq⟩
    rw [filter_eq_self.2 habsent]
    refine ⟨s, ?_, h, rfl, fun _ => rfl, fun hin' => absurd hin' hin⟩
    simp only [delete, hfind, next_pred h, hhas, hin, decide_false, bind_eq_bind,
      bind_some, Bool.false_eq_true, if_false]

theorem keepsOrder_insert_iff (h : Holds s N) {level : Fin (MAX_LEVEL + 1)} {hint : Nat} :
    keepsOrder s (.insert key level hint) ↔
      ((∀ x ∈ N, x.key ≠ key) → s.level < level → ∀ x ∈ N, s.level ≤ x.height → key ≤ x.key) := by
  rcases search_spec h key with ⟨p, hsearch, -⟩
  have hfound := search_isSome h hsearch
  have hfirst : getForward s.heap s.header s.level = some (lane s.level N).head? := by
    have hlink := (h.linked s.level h.level_le).1
    rwa [or_none] at hlink
  have hsorted : (N.filter fun x => s.level ≤ x.height).Pairwise fun x y => x.key < y.key :=
    h.sorted.sublist filter_sublist
  have hsmaller : isBefore s.heap key (lane s.level N).head? = some false ↔
      ∀ x ∈ N, s.level ≤ x.height → key ≤ x.key := by
    have htop : ∀ x, x ∈ N.filter (fun x => s.level ≤ x.height) ↔ x ∈ N ∧ s.level ≤ x.height := by
      simp
    simp only [lane, ← and_imp, ← htop]
    generalize N.filter (fun x => s.level ≤ x.height) = top at hsorted htop
    rcases top with _ | ⟨y, top⟩
    · simp [isBefore]
    · have hy : getKey s.heap y.addr = some y.key := h.key_eq y ((htop y).1 mem_cons_self).1
      simp only [map_cons, head?_cons, isBefore, hy, map_some, Option.some.injEq,
        decide_eq_false_iff_not, not_lt,
        forall_mem_cons]
      -- the others have larger keys
      exact ⟨fun hle => ⟨hle, fun x hx => hle.trans ((pairwise_cons.1 hsorted).1 x hx).le⟩,
        And.left⟩
  have habsent : p.isSome = true ↔ ¬ ∀ x ∈ N, x.key ≠ key := by
    rw [hfound]
    simp
  simp only [keepsOrder, hsearch, hfirst, Bool.or_eq_true, decide_eq_true_eq, beq_iff_eq]
  rw [← not_lt]
  tauto

/-- A call that `keepsOrder` excludes puts a key before a smaller one. -/
theorem insert_misplaces (h : Holds s N) {level : Nat} (hlevel : level ≤ MAX_LEVEL)
    (habsent : ∀ x ∈ N, x.key ≠ key) (hnew : s.level < level) {y : Tower} (hy : y ∈ N)
    (hheight : s.level ≤ y.height) (hlt : y.key < key) (hint : Nat) :
    ∃ s' l, insert s key level hint = some s' ∧ levelKeys s' s.level = some l ∧
      ¬ l.Pairwise (· < ·) := by
  rcases exists_update h key with ⟨P, Q, update, rfl, hcut, hfind, hupdate⟩
  have hno : ¬ ∃ x ∈ P ++ Q, x.key = key := fun ⟨x, hx, heq⟩ => habsent x hx heq
  rcases insertNode_misplaces h hlevel hnew hy hheight hlt update
    (fun j hj => ⟨lane j P, lane j Q, lane_append, hupdate j hj⟩) hint
      with ⟨s', l, hrun, hread, hsorted⟩
  refine ⟨s', l, ?_, hread, hsorted⟩
  simp only [insert, hfind, next_pred h, hasKey_head h hcut, hno, decide_false, bind_eq_bind,
    bind_some, Bool.false_eq_true, if_false, hrun]

/-- The relation between a list and the calls that made it. -/
def Answers (s : State) (calls : List Call) : Prop :=
  ∃ N, Holds s N ∧ ∀ k, (∃ x ∈ N, x.key = k) ↔ k ∈ keySet (calls.map Call.toSetCall)

theorem call_spec (s : State) (calls : List Call) (c : Call) (h : Answers s calls)
    (hok : keepsOrder s c) : ∃ s', call s c = some s' ∧ Answers s' (calls ++ [c]) := by
  rcases h with ⟨N, hholds, hkeys⟩
  have hset : keySet ((calls ++ [c]).map Call.toSetCall) =
      SetCall.effect (keySet (calls.map Call.toSetCall)) c.toSetCall := by
    rw [keySet, map_append, foldl_append]
    rfl
  cases c with
  | insert key level hint =>
    rcases insert_spec hholds (Nat.lt_succ_iff.1 level.isLt) ((keepsOrder_insert_iff hholds).1 hok)
      hint
      with ⟨s', N', hrun, hholds', hmem⟩
    refine ⟨s', hrun, N', hholds', fun k => ?_⟩
    rw [hmem, hkeys, hset]
    exact Finset.mem_insert.symm
  | delete key =>
    rcases delete_spec hholds key with ⟨s', hrun, hholds', -⟩
    refine ⟨s', hrun, _, hholds', fun k => ?_⟩
    rw [hset, Call.toSetCall, SetCall.effect, Finset.mem_erase, ← hkeys]
    grind

theorem createSkipList_answers : Answers createSkipList [] := by
  have hread : ∀ j, j ≤ MAX_LEVEL →
    getForward createSkipList.heap createSkipList.header j = some none := by
    decide
  refine ⟨[], ⟨by simp, ?_, by simp, List.Pairwise.nil, by simp, Nat.zero_le _⟩, by simp [keySet]⟩
  intro i hi
  exact ⟨hread i hi, trivial⟩

/-- In every run whose insertions keep the order on the top level, all levels are increasing and
nested, and the search finds exactly the keys that were inserted and not deleted since. -/
theorem skip_list_is_set (calls : List Call) (hok : guarded call keepsOrder createSkipList calls) :
    ∃ s, run calls = some s ∧
      (∀ i, i ≤ MAX_LEVEL → ∃ l, levelKeys s i = some l ∧ l.Pairwise (· < ·)) ∧
      (∀ i, i < MAX_LEVEL →
        ∃ l l', levelKeys s i = some l ∧ levelKeys s (i + 1) = some l' ∧ l'.Sublist l) ∧
      ∀ k, ∃ p, search s k = some p ∧ (p.isSome ↔ k ∈ keySet (calls.map Call.toSetCall)) := by
  rcases runCalls_guarded (fun s made c _ => call_spec s made c) createSkipList_answers hok with
    ⟨s, hrun, N, hholds, hkeys⟩
  refine ⟨s, hrun, ?_, ?_, ?_⟩
  · intro i hi
    refine ⟨_, levelKeys_spec hholds hi, ?_⟩
    rw [pairwise_map]
    exact hholds.sorted.sublist filter_sublist
  · intro i hi
    refine ⟨_, _, levelKeys_spec hholds hi.le, levelKeys_spec hholds hi, List.Sublist.map _ ?_⟩
    exact monotone_filter_right N fun x hx => by simp at hx ⊢; omega
  · intro k
    rcases search_spec hholds k with ⟨p, hsearch, -⟩
    exact ⟨p, hsearch, (search_isSome hholds hsearch).trans (hkeys k)⟩

/-- Two insertions after which level `0` is `20` before `10`, and `10` is not found. -/
theorem taller_key_hides_smaller :
    (run [.insert 10 0 1, .insert 20 1 2]).bind (fun s => levelKeys s 0) = some [20, 10] ∧
      (run [.insert 10 0 1, .insert 20 1 2]).bind (fun s => search s 10) = some none ∧
      10 ∈ keySet ([Call.insert 10 0 1, .insert 20 1 2].map Call.toSetCall) := by
  decide +kernel

theorem skip_list_is_set_five :
    ∃ s, run [.insert 30 1 1, .insert 20 2 5, .insert 40 0 3, .delete 30, .insert 25 2 1] = some s ∧
      (∀ i, i ≤ MAX_LEVEL → ∃ l, levelKeys s i = some l ∧ l.Pairwise (· < ·)) ∧
      (∀ i, i < MAX_LEVEL →
        ∃ l l', levelKeys s i = some l ∧ levelKeys s (i + 1) = some l' ∧ l'.Sublist l) ∧
      ∀ k, ∃ p, search s k = some p ∧ (p.isSome ↔ k ∈ keySet
        ([Call.insert 30 1 1, .insert 20 2 5, .insert 40 0 3, .delete 30, .insert 25 2 1].map
          Call.toSetCall)) :=
  skip_list_is_set [.insert 30 1 1, .insert 20 2 5, .insert 40 0 3, .delete 30, .insert 25 2 1]
    (by decide +kernel)

/-- The condition cannot be dropped for any call: after every such run, a call that does not keep
the order leaves a level that is not increasing. -/
theorem unordered_call_breaks_level (calls : List Call)
    (hok : guarded call keepsOrder createSkipList calls) (c : Call) :
    ∃ s, run calls = some s ∧ (¬ keepsOrder s c → ∃ s' i l, call s c = some s' ∧ i ≤ MAX_LEVEL ∧
      levelKeys s' i = some l ∧ ¬ l.Pairwise (· < ·)) := by
  rcases runCalls_guarded (fun s made c _ => call_spec s made c) createSkipList_answers hok with
    ⟨s, hrun, N, hholds, -⟩
  refine ⟨s, hrun, fun hnot => ?_⟩
  cases c with
  | insert key level hint =>
    rw [keepsOrder_insert_iff hholds] at hnot
    simp only [not_forall, not_le] at hnot
    rcases hnot with ⟨habsent, hnew, y, hy, hheight, hlt⟩
    rcases insert_misplaces hholds (Nat.lt_succ_iff.1 level.isLt) habsent hnew hy hheight hlt hint
      with ⟨s', l, hcall, hread, hsorted⟩
    exact ⟨s', s.level, l, hcall, hholds.level_le, hread, hsorted⟩
  | delete key => exact absurd rfl hnot

theorem unordered_call_breaks_level_demo : ∃ s s' i l, run [.insert 10 0 1] = some s ∧
    call s (.insert 20 2 5) = some s' ∧ levelKeys s' i = some l ∧ ¬ l.Pairwise (· < ·) := by
  rcases unordered_call_breaks_level [.insert 10 0 1] (by decide +kernel) (.insert 20 2 5)
    with ⟨s, hrun, h⟩
  rcases h (by cases hrun; decide +kernel) with ⟨s', i, l, hcall, -, hread, hl⟩
  exact ⟨s, s', i, l, hrun, hcall, hread, hl⟩

end SystemsLab.SkipList
