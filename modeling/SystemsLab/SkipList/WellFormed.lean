import SystemsLab.SkipList.Calls

/-!
# Search and deletion on any well-formed list

A list is well-formed if its levels are increasing, each is a sublist of the one below, and the
header has no link above the level of the list.  Such a list need not come from calls of `insert`.
It is the same as holding towers (`Holds`): the height of a node is the highest level it is on.
-/

namespace SystemsLab.SkipList

open Chain CallSequence List Option

/-- Level `i` of the list has the nodes `lanes i`. -/
structure WellFormed (s : State) (lanes : Nat → List Ptr) : Prop where
  level_le : s.level ≤ MAX_LEVEL
  linked : ∀ i, i ≤ MAX_LEVEL → Linked (fun a => getForward s.heap a i) (s.header :: lanes i) none
  increasing : ∀ i, i ≤ s.level → (lanes i).Pairwise fun a b => ∃ k k', getKey s.heap a = some k ∧
      getKey s.heap b = some k' ∧ k < k'
  nested : ∀ i, i < s.level → (lanes (i + 1)).Sublist (lanes i)
  empty : ∀ i, s.level < i → i ≤ MAX_LEVEL → lanes i = []

variable {s : State} {lanes : Nat → List Ptr} {N : List Tower} {i j : Nat} {a : Ptr} {key : Int}

theorem filter_mem_of_sublist {l L : List Ptr} (h : l.Sublist L) (hL : L.Nodup) :
    L.filter (· ∈ l) = l := by
  induction h with
  | slnil => rfl
  | cons b hsub ih =>
    rcases nodup_cons.1 hL with ⟨hb, hL⟩
    rw [filter_cons_of_neg (by simpa using fun hmem => hb (hsub.subset hmem)), ih hL]
  | cons_cons b hsub ih =>
    rcases nodup_cons.1 hL with ⟨hb, hL⟩
    rw [filter_cons_of_pos (by simp)]
    congr 1
    refine Eq.trans (filter_congr fun a ha => ?_) (ih hL)
    have hne : a ≠ b := fun heq => hb (heq ▸ ha)
    simp [hne]

namespace WellFormed

theorem sublist (h : WellFormed s lanes) (hij : i ≤ j) (hj : j ≤ MAX_LEVEL) :
    (lanes j).Sublist (lanes i) := by
  induction j, hij using Nat.le_induction with
  | base => exact Sublist.refl _
  | succ j hij ih =>
    rcases lt_or_ge j s.level with hlt | hge
    · exact (h.nested j hlt).trans (ih (by omega))
    · rw [h.empty (j + 1) (by omega) hj]
      exact nil_sublist _

theorem exists_key (h : WellFormed s lanes) (ha : a ∈ lanes 0) : ∃ k, getKey s.heap a = some k := by
  rcases (h.linked 0 (Nat.zero_le _)).exists_next (mem_cons_of_mem _ ha) with ⟨p, hp⟩
  rcases bind_eq_some_iff.1 hp with ⟨n, hn, -⟩
  exact ⟨n.key, by rw [getKey, hn]; rfl⟩

theorem lane_nodup (h : WellFormed s lanes) : (lanes 0).Nodup := by
  refine (h.increasing 0 (Nat.zero_le _)).imp ?_
  rintro a b ⟨k, k', hk, hk', hlt⟩ rfl
  exact hlt.ne (some.inj (hk.symm.trans hk'))

/-- If the header were on level 0, its successor would be there twice. -/
theorem nodup (h : WellFormed s lanes) : (s.header :: lanes 0).Nodup := by
  refine nodup_cons.2 ⟨fun hmem => ?_, h.lane_nodup⟩
  rcases append_of_mem hmem with ⟨l1, l2, hsplit⟩
  have hlinked := h.linked 0 (Nat.zero_le _)
  have hnodup := h.lane_nodup
  rw [hsplit] at hlinked hnodup
  have hfirst : getForward s.heap s.header 0 = some ((l1 ++ s.header :: l2).head?.or none) :=
    hlinked.1
  have hagain : getForward s.heap s.header 0 = some (l2.head?.or none) :=
    (linked_append.1 hlinked.2).2.1
  rw [hfirst, some.injEq, or_none, or_none] at hagain
  cases l1 with
  | nil =>
    have hin := mem_of_head? hagain.symm
    exact (nodup_cons.1 hnodup).1 hin
  | cons b l1 =>
    have hin := mem_of_head? hagain.symm
    exact (nodup_cons.1 hnodup).1 (mem_append_right _ (mem_cons_of_mem _ hin))

end WellFormed

def towerOf (s : State) (lanes : Nat → List Ptr) (a : Ptr) : Tower :=
  ⟨a, (getKey s.heap a).getD 0, Nat.findGreatest (fun i => a ∈ lanes i) MAX_LEVEL⟩

theorem towerOf_height_le : (towerOf s lanes a).height ≤ MAX_LEVEL :=
  Nat.findGreatest_le (P := fun i => a ∈ lanes i) MAX_LEVEL

theorem WellFormed.le_height_iff (h : WellFormed s lanes) (ha : a ∈ lanes 0) (hi : i ≤ MAX_LEVEL) :
    i ≤ (towerOf s lanes a).height ↔ a ∈ lanes i := by
  constructor
  · intro hle
    have hon : a ∈ lanes (towerOf s lanes a).height :=
      Nat.findGreatest_spec (P := fun i => a ∈ lanes i) (Nat.zero_le MAX_LEVEL) ha
    exact (h.sublist hle towerOf_height_le).subset hon
  · exact fun hmem => Nat.le_findGreatest hi hmem

theorem WellFormed.lane_towers (h : WellFormed s lanes) (hi : i ≤ MAX_LEVEL) :
    lane i ((lanes 0).map (towerOf s lanes)) = lanes i := by
  have hself : Tower.addr ∘ towerOf s lanes = id := rfl
  rw [lane, List.filter_map, List.map_map, hself, List.map_id,
    ← filter_mem_of_sublist (h.sublist (Nat.zero_le i) hi)
    (nodup_cons.1 h.nodup).2]
  refine filter_congr fun a ha => ?_
  simp [h.le_height_iff ha hi]

theorem WellFormed.holds (h : WellFormed s lanes) : Holds s ((lanes 0).map (towerOf s lanes)) where
  key_eq x hx := by
    rcases mem_map.1 hx with ⟨a, ha, rfl⟩
    rcases h.exists_key ha with ⟨k, hk⟩
    simp [towerOf, hk]
  linked i hi := by
    rw [h.lane_towers hi]
    exact h.linked i hi
  nodup := by
    rw [List.map_map, show Tower.addr ∘ towerOf s lanes = id from rfl, List.map_id]
    exact h.nodup
  sorted := by
    rw [pairwise_map]
    refine (h.increasing 0 (Nat.zero_le _)).imp ?_
    rintro a b ⟨k, k', hk, hk', hlt⟩
    simpa only [towerOf, hk, hk', getD_some] using hlt
  height_le x hx := by
    rcases mem_map.1 hx with ⟨a, ha, rfl⟩
    by_contra hgt
    have hmem := (h.le_height_iff ha towerOf_height_le).1 le_rfl
    rw [h.empty _ (not_le.1 hgt) towerOf_height_le] at hmem
    cases hmem
  level_le := h.level_le

theorem WellFormed.exists_holds (h : WellFormed s lanes) :
    ∃ N, Holds s N ∧ ∀ i, i ≤ MAX_LEVEL → lane i N = lanes i :=
  ⟨_, h.holds, fun _ => h.lane_towers⟩

theorem Holds.wellFormed (h : Holds s N) : WellFormed s fun i => lane i N where
  level_le := h.level_le
  linked := h.linked
  increasing i _ := by
    rw [lane, pairwise_map]
    have hsorted : (N.filter fun x => i ≤ x.height).Pairwise fun x y => x.key < y.key :=
      h.sorted.sublist filter_sublist
    refine hsorted.imp_of_mem fun hx hy hlt => ?_
    exact ⟨_, _, h.key_eq _ (mem_of_mem_filter hx), h.key_eq _ (mem_of_mem_filter hy), hlt⟩
  nested i _ := by
    refine Sublist.map _ (monotone_filter_right N fun x hx => ?_)
    simp at hx ⊢
    omega
  empty i hi _ := lane_eq_nil fun x hx => (h.height_le x hx).trans_lt hi

theorem Holds.exists_tower_iff (h : Holds s N) :
    (∃ x ∈ N, x.key = key ∧ x.addr = a) ↔ a ∈ lane 0 N ∧ getKey s.heap a = some key := by
  rw [lane_zero, List.mem_map]
  constructor
  · rintro ⟨x, hx, rfl, rfl⟩
    exact ⟨⟨x, hx, rfl⟩, h.key_eq x hx⟩
  · rintro ⟨⟨x, hx, rfl⟩, hkey⟩
    rw [h.key_eq x hx, some.injEq] at hkey
    exact ⟨x, hx, hkey, rfl⟩

theorem Holds.lane_filter (h : Holds s N) (key : Int) (i : Nat) :
    lane i (N.filter fun x => x.key ≠ key) = (lane i N).filter fun a =>
      getKey s.heap a ≠ some key := by
  rw [lane, lane, List.filter_map, List.filter_filter, List.filter_filter]
  congr 1
  refine filter_congr fun x hx => ?_
  simp [h.key_eq x hx, Bool.and_comm]

/-- On every well-formed list, `search` returns the node of a key if level 0 has one and `NULL`
otherwise, and `delete` leaves a well-formed list without this node, with the level lowered to the
highest one that is not empty, or to 0; without such a node it changes nothing. -/
theorem search_delete_well_formed (s : State) (lanes : Nat → List Ptr)
    (h : WellFormed s lanes) (key : Int) :
    (∃ p, search s key = some p ∧ ∀ a, p = some a ↔ a ∈ lanes 0 ∧ getKey s.heap a = some key) ∧
    ∃ s', delete s key = some s' ∧ (∃ lanes', WellFormed s' lanes' ∧
        (∀ i, i ≤ MAX_LEVEL → lanes' i = (lanes i).filter fun a => getKey s.heap a ≠ some key) ∧
        ((∃ a ∈ lanes 0, getKey s.heap a = some key) →
          s'.level ≤ s.level ∧ (s'.level = 0 ∨ lanes' s'.level ≠ []))) ∧ s'.header = s.header ∧
      (∀ a ∈ lanes 0, getKey s.heap a ≠ some key → getKey s'.heap a = getKey s.heap a) ∧
      ((∀ a ∈ lanes 0, getKey s.heap a ≠ some key) → s' = s) := by
  rcases h.exists_holds with ⟨N, hholds, hlane⟩
  have hbottom := hlane 0 (Nat.zero_le _)
  refine ⟨?_, ?_⟩
  · rcases search_spec hholds key with ⟨p, hsearch, hfound⟩
    refine ⟨p, hsearch, fun a => ?_⟩
    rw [hfound, hholds.exists_tower_iff, hbottom]
  · rcases delete_spec hholds key with ⟨s', hdelete, hholds', hheader, habsent, hlevel⟩
    refine ⟨s', hdelete, ⟨_, hholds'.wellFormed, fun i hi => ?_, ?_⟩, hheader, fun a ha hne => ?_,
      fun hall => ?_⟩
    · rw [hholds.lane_filter, hlane i hi]
    · rintro ⟨a, ha, hkey⟩
      rcases hholds.exists_tower_iff.2 ⟨hbottom ▸ ha, hkey⟩ with ⟨x, hx, hx', -⟩
      exact hlevel ⟨x, hx, hx'⟩
    · rw [← hbottom, lane_zero] at ha
      rcases mem_map.1 ha with ⟨x, hx, rfl⟩
      rw [hholds.key_eq x hx] at hne ⊢
      exact hholds'.key_eq x (mem_filter.2 ⟨hx, by simpa using hne⟩)
    · refine habsent fun x hx hkey => ?_
      rcases hholds.exists_tower_iff.1 ⟨x, hx, hkey, rfl⟩ with ⟨ha, hkey'⟩
      exact hall x.addr (hbottom ▸ ha) hkey'

/-- The list after three insertions, which has three levels, loses its tallest node. -/
theorem search_delete_three_levels :
    ∃ s lanes, run [.insert 30 1 1, .insert 20 2 5, .insert 40 0 3] = some s ∧ WellFormed s lanes ∧
      (∃ p, search s 20 = some p ∧ ∀ a, p = some a ↔ a ∈ lanes 0 ∧ getKey s.heap a = some 20) ∧
      ∃ s', delete s 20 = some s' ∧ ∃ lanes', WellFormed s' lanes' ∧
        ∀ i, i ≤ MAX_LEVEL → lanes' i = (lanes i).filter fun a => getKey s.heap a ≠ some 20 := by
  rcases runCalls_guarded (fun s made c _ => call_spec s made c) createSkipList_answers
    (show guarded call keepsOrder createSkipList [.insert 30 1 1, .insert 20 2 5,
      .insert 40 0 3] by decide +kernel)
    with ⟨s, hrun, N, hholds, -⟩
  rcases search_delete_well_formed s _ hholds.wellFormed 20 with
    ⟨hsearch, s', hdelete, ⟨lanes', hwell, hlanes, -⟩, -⟩
  exact ⟨s, _, hrun, hholds.wellFormed, hsearch, s', hdelete, lanes', hwell, hlanes⟩

end SystemsLab.SkipList
