import SystemsLab.SkipList.Towers

/-!
# Linking and unlinking a node

The loop of `insert` puts the new node behind `update[i]` on each of its levels.  With `update[i]`
the predecessor of the key on level `i` this is the abstract insertion (`insertNode_spec`).

The entries for new levels are set by a loop that starts at the old level of the list, so the entry
of that level is lost to the header.  `patchLevels_spec` needs that the header is the predecessor
there.

The loop of `delete` goes up from level `0` while the predecessor leads to the node, that is up to
the height of the node, and leaves it out of every level.  Then the level of the list is lowered
past the levels that became empty.
-/

namespace SystemsLab.SkipList

open Chain List Option Heap

/-! ## Writing a pointer -/

variable {H : Heap SkipListNode} {a : Ptr} {i : Nat} {q : Option Ptr}

theorem setForward_spec (h : getForward H a i = some q) (p : Option Ptr) :
    ∃ H', setForward H a i p = some H' ∧
      (∀ b j, getForward H' b j = if b = a ∧ j = i then some p else getForward H b j) ∧
      ∀ b, getKey H' b = getKey H b := by
  rcases bind_eq_some_iff.1 h with ⟨n, hn, hq⟩
  have hlt : i < n.forward.length := (List.getElem?_eq_some_iff.1 hq).1
  refine ⟨H.adjust a fun n => { n with forward := n.forward.set i p }, ?_, ?_, ?_⟩
  · simp [setForward, hn, if_pos hlt, modify_eq hn]
  · intro b j
    rcases eq_or_ne b a with rfl | hb
    · simp only [getForward, adjust_self hn, hn, bind_eq_bind, bind_some, true_and]
      rcases eq_or_ne j i with rfl | hj
      · rw [if_pos rfl, List.getElem?_set_self hlt]
      · rw [if_neg hj, List.getElem?_set_ne (Ne.symm hj)]
    · rw [if_neg (by tauto), getForward, getForward, adjust_of_ne hb]
  · intro b
    rcases eq_or_ne b a with rfl | hb
    · rw [getKey, getKey, adjust_self hn, hn]
      rfl
    · rw [getKey, getKey, adjust_of_ne hb]

/-! ## The entries of `update` -/

theorem patchUpdate_spec (header : Ptr) (r i : Nat) (update : Update) (h : i + r ≤ MAX_LEVEL + 1) :
    ∃ update', patchUpdate header r i update = some update' ∧
      ∀ j, update'.get j = if i ≤ j ∧ j < i + r then some (some header) else update.get j := by
  induction r generalizing i update with
  | zero =>
    refine ⟨update, rfl, fun j => ?_⟩
    rw [if_neg (by omega)]
  | succ r ih =>
    rcases CArray.exists_set update (i := i) (by omega) (some header) with ⟨update1, hset, hget⟩
    rcases ih (i + 1) update1 (by omega) with ⟨update', hrun, hget'⟩
    refine ⟨update', by simp [patchUpdate, hset, hrun], fun j => ?_⟩
    rw [hget' j, hget j]
    rcases eq_or_ne j i with rfl | hj
    · rw [if_neg (by omega), if_pos rfl, if_pos (by omega)]
    · by_cases hin : i + 1 ≤ j ∧ j < i + 1 + r
      · rw [if_pos hin, if_pos (by omega)]
      · rw [if_neg hin, if_neg hj, if_neg (by omega)]

variable {s : State} {P Q : List Tower} {key : Int} {newLevel : Nat} {update : Update}

/-- All entries are predecessors, if the header is the predecessor on the old level of the list. -/
theorem patchLevels_spec (h : Holds s (P ++ Q)) (hlevel : newLevel ≤ MAX_LEVEL)
    (hfirst : s.level < newLevel → pred s.header s.level P = s.header)
    (hupdate : ∀ j, j ≤ s.level → update.get j = some (some (pred s.header j P))) :
    ∃ update', patchLevels s newLevel update = some update' ∧
      ∀ j, j ≤ newLevel → update'.get j = some (some (pred s.header j P)) := by
  by_cases hnew : newLevel > s.level
  · rcases patchUpdate_spec s.header (newLevel + 1 - s.level) s.level update (by omega)
      with ⟨update', hrun, hget⟩
    refine ⟨update', by rw [patchLevels, if_pos hnew, hrun], fun j hj => ?_⟩
    rw [hget]
    by_cases hlow : j < s.level
    · rw [if_neg (by omega)]
      exact hupdate j hlow.le
    · rw [if_pos (by omega)]
      rcases eq_or_lt_of_le (not_lt.1 hlow) with rfl | hgt
      · rw [hfirst hnew]
      · -- above the old level there is only the header
        have hempty : lane j P = [] := by
          apply lane_eq_nil
          intro x hx
          exact (h.height_le x (mem_append_left _ hx)).trans_lt hgt
        rw [pred, hempty]
        rfl
  · refine ⟨update, by rw [patchLevels, if_neg hnew], fun j hj => hupdate j (by omega)⟩

variable {N : List Tower} {header b : Ptr} {hint : Nat} {n : SkipListNode}

/-- One level of the last loop of `insert`: the new node goes behind the nodes `l1`. -/
theorem linkLevel_spec {l1 l2 : List Ptr}
    (hlinked : Linked (fun b => getForward H b i) (header :: l1 ++ l2) none)
    (hnodup : (header :: l1 ++ l2).Nodup) (ha : a ∉ header :: l1 ++ l2)
    (hq : getForward H a i = some q) :
    ∃ p H1 H2, getForward H (l1.getLastD header) i = some p ∧ setForward H a i p = some H1 ∧
      setForward H1 (l1.getLastD header) i (some a) = some H2 ∧
      Linked (fun b => getForward H2 b i) (header :: l1 ++ a :: l2) none ∧
      (∀ b j, j ≠ i → getForward H2 b j = getForward H b j) ∧ ∀ b, getKey H2 b = getKey H b := by
  have hp : getForward H (l1.getLastD header) i = some (l2.head?.or none) := hlinked.last
  have hne : l1.getLastD header ≠ a := by
    rintro rfl
    exact ha (mem_append_left _ (getLastD_mem l1 header))
  rcases setForward_spec hq (l2.head?.or none) with ⟨H1, hset1, hget1, hkey1⟩
  have hu : getForward H1 (l1.getLastD header) i = some (l2.head?.or none) := by
    rw [hget1, if_neg (by tauto), hp]
  rcases setForward_spec hu (some a) with ⟨H2, hset2, hget2, hkey2⟩
  refine ⟨_, H1, H2, hp, hset1, hset2, ?_, ?_, fun b => (hkey2 b).trans (hkey1 b)⟩
  · apply hlinked.splice_last hnodup ha
    · rw [hget2, if_pos ⟨rfl, rfl⟩]
    · rw [hget2, if_neg (by tauto), hget1, if_pos ⟨rfl, rfl⟩]
      exact hp.symm
    · intro b hbu hba
      rw [hget2, if_neg (by tauto), hget1, if_neg (by tauto)]
  · intro b j hj
    rw [hget2, if_neg (by tauto), hget1, if_neg (by tauto)]

/-- The last loop of `insert` links the new node on the levels `i`, …, `i + r - 1`, on level `j`
behind the nodes `front j`. -/
theorem linkLevels_spec {front back : Nat → List Ptr} {r : Nat}
    (hupdate : ∀ j, i ≤ j → j < i + r → update.get j = some (some ((front j).getLastD header)))
    (hlinked : ∀ j, i ≤ j → j < i + r →
      Linked (fun b => getForward H b j) (header :: front j ++ back j) none)
    (hnodup : ∀ j, (header :: front j ++ back j).Nodup) (ha : ∀ j, a ∉ header :: front j ++ back j)
    (hnew : ∀ j, i ≤ j → j < i + r → ∃ q, getForward H a j = some q) :
    ∃ H', linkLevels update a r i H = some H' ∧ (∀ j, i ≤ j → j < i + r →
        Linked (fun b => getForward H' b j) (header :: front j ++ a :: back j) none) ∧
      (∀ b j, j < i ∨ i + r ≤ j → getForward H' b j = getForward H b j) ∧
      ∀ b, getKey H' b = getKey H b := by
  induction r generalizing i H with
  | zero =>
    refine ⟨H, rfl, ?_, fun b j _ => rfl, fun b => rfl⟩
    omega
  | succ r ih =>
    rcases hnew i le_rfl (by omega) with ⟨q, hq⟩
    rcases linkLevel_spec (hlinked i le_rfl (by omega)) (hnodup i) (ha i) hq
      with ⟨p, H1, H2, hp, hset1, hset2, hlinked2, hother2, hkey2⟩
    have hlinked' : ∀ j, i + 1 ≤ j → j < i + 1 + r →
        Linked (fun b => getForward H2 b j) (header :: front j ++ back j) none := by
      intro j hij hj
      exact (hlinked j (by omega) (by omega)).congr fun b _ => hother2 b j (by omega)
    have hnew' : ∀ j, i + 1 ≤ j → j < i + 1 + r → ∃ q, getForward H2 a j = some q := by
      intro j hij hj
      rw [hother2 a j (by omega)]
      exact hnew j (by omega) (by omega)
    rcases ih (fun j hij hj => hupdate j (by omega) (by omega)) hlinked' hnew'
      with ⟨H', hrun, hdone, hother, hkey⟩
    refine ⟨H', ?_, ?_, ?_, fun b => (hkey b).trans (hkey2 b)⟩
    · simp only [linkLevels, hupdate i le_rfl (by omega), hp, hset1, hset2, hrun,
        bind_eq_bind, bind_some]
    · intro j hij hj
      rcases eq_or_ne j i with rfl | hji
      · exact hlinked2.congr fun b _ => hother b j (.inl (Nat.lt_succ_self j))
      · exact hdone j (by omega) (by omega)
    · intro b j hj
      rw [hother b j (by omega), hother2 b j (by omega)]

theorem getForward_alloc (hb : b ≠ H.freshAddr hint) (j : Nat) :
    getForward (H.alloc hint n) b j = getForward H b j := by
  rw [getForward, getForward, alloc_of_ne hb]

theorem getKey_alloc (hb : b ≠ H.freshAddr hint) : getKey (H.alloc hint n) b = getKey H b := by
  rw [getKey, getKey, alloc_of_ne hb]

theorem Holds.fresh_notMem (h : Holds s N) (hint : Nat) :
    s.heap.freshAddr hint ∉ s.header :: N.map Tower.addr := by
  intro hmem
  rcases h.allocated _ hmem with ⟨n, hn⟩
  rw [cell_freshAddr] at hn
  cases hn

theorem linkNode_spec (h : Holds s N) (hlevel : newLevel ≤ MAX_LEVEL)
    (front back : Nat → List Ptr) (hsplit : ∀ j, front j ++ back j = lane j N)
    (hupdate : ∀ j, j ≤ newLevel → update.get j = some (some ((front j).getLastD s.header)))
    (key : Int) (hint : Nat) :
    ∃ H', linkLevels update (s.heap.freshAddr hint) (newLevel + 1) 0
        (s.heap.alloc hint (createNode key newLevel)) = some H' ∧
      (∀ j, j ≤ newLevel → Linked (fun b => getForward H' b j)
        (s.header :: front j ++ s.heap.freshAddr hint :: back j) none) ∧
      (∀ j, newLevel < j → j ≤ MAX_LEVEL →
        Linked (fun b => getForward H' b j) (s.header :: lane j N) none) ∧
      (∀ x ∈ N, getKey H' x.addr = some x.key) ∧ getKey H' (s.heap.freshAddr hint) = some key := by
  have hfresh := h.fresh_notMem hint
  have hlane : ∀ j, s.heap.freshAddr hint ∉ s.header :: lane j N := by
    intro j hmem
    exact hfresh (((lane_sublist j N).cons_cons s.header).subset hmem)
  have hlinked : ∀ j, j ≤ MAX_LEVEL → Linked
      (fun b => getForward (s.heap.alloc hint (createNode key newLevel)) b j)
      (s.header :: lane j N) none := by
    intro j hj
    apply (h.linked j hj).congr
    intro b hb
    apply getForward_alloc
    rintro rfl
    exact hlane j hb
  have hnew : ∀ j, j ≤ newLevel → ∃ q,
      getForward (s.heap.alloc hint (createNode key newLevel)) (s.heap.freshAddr hint) j =
        some q := by
    intro j hj
    refine ⟨none, ?_⟩
    rw [getForward, alloc_self]
    simp only [createNode, bind_eq_bind, bind_some, getElem?_replicate]
    rw [if_pos (by omega)]
  have hshape : ∀ j, s.header :: front j ++ back j = s.header :: lane j N := by
    intro j
    rw [cons_append, hsplit]
  rcases linkLevels_spec (r := newLevel + 1) (i := 0) (fun j _ hj => hupdate j (by omega))
    (fun j _ hj => by rw [hshape]; exact hlinked j (by omega))
    (fun j => by rw [hshape]; exact h.lane_nodup j) (fun j => by rw [hshape]; exact hlane j)
    (fun j _ hj => hnew j (by omega)) with ⟨H', hlink, hdone, hother, hkey⟩
  refine ⟨H', hlink, fun j hj => hdone j (Nat.zero_le _) (by omega), ?_, ?_, ?_⟩
  · intro j hnj hj
    exact (hlinked j hj).congr fun b _ => hother b j (.inr (by omega))
  · intro x hx
    rw [hkey, getKey_alloc, h.key_eq x hx]
    intro heq
    exact hfresh (heq ▸ mem_cons_of_mem _ (mem_map_of_mem hx))
  · rw [hkey, getKey, alloc_self]
    rfl

theorem insertNode_spec (h : Holds s (P ++ Q)) (hcut : Cut key P Q)
    (habsent : ∀ x ∈ Q, x.key ≠ key) (hlevel : newLevel ≤ MAX_LEVEL)
    (hfirst : s.level < newLevel → pred s.header s.level P = s.header)
    (hupdate : ∀ j, j ≤ s.level → update.get j = some (some (pred s.header j P))) (hint : Nat) :
    ∃ s', insertNode s key newLevel hint update = some s' ∧
      Holds s' (P ++ ⟨s.heap.freshAddr hint, key, newLevel⟩ :: Q) := by
  rcases patchLevels_spec h hlevel hfirst hupdate with ⟨update', hpatch, hget⟩
  rcases linkNode_spec h hlevel (fun j => lane j P) (fun j => lane j Q)
    (fun j => lane_append.symm) hget key hint with ⟨H', hlink, hlow, hhigh, hkeys, hkey⟩
  have hcases : ∀ x ∈ P ++ ⟨s.heap.freshAddr hint, key, newLevel⟩ :: Q,
      x ∈ P ++ Q ∨ x = ⟨s.heap.freshAddr hint, key, newLevel⟩ := by
    intro x hx
    simp only [mem_append, mem_cons] at hx ⊢
    tauto
  refine ⟨⟨H', max s.level newLevel, s.header⟩, ?_, ?_, ?_, ?_, ?_, ?_, ?_⟩
  · simp [insertNode, hpatch, hlink]
  · intro x hx
    rcases hcases x hx with hx | rfl
    · exact hkeys x hx
    · exact hkey
  · intro j hj
    by_cases hjn : j ≤ newLevel
    · rw [lane_append, lane_cons_of_le hjn]
      exact hlow j hjn
    · rw [lane_append, lane_cons_of_lt (not_le.1 hjn), ← lane_append]
      exact hhigh j (not_le.1 hjn) hj
  · have hperm : (s.header ::
      (P ++ ⟨s.heap.freshAddr hint, key, newLevel⟩ :: Q).map Tower.addr).Perm
        (s.heap.freshAddr hint :: s.header :: (P ++ Q).map Tower.addr) := by
      simp only [map_append]
      exact (perm_middle.cons s.header).trans (Perm.swap ..)
    exact hperm.nodup_iff.2 (nodup_cons.2 ⟨h.fresh_notMem hint, h.nodup⟩)
  · rcases pairwise_append.1 h.sorted with ⟨hP, hQ, hPQ⟩
    refine pairwise_append.2 ⟨hP, pairwise_cons.2 ⟨?_, hQ⟩, ?_⟩
    · intro y hy
      exact lt_of_le_of_ne (hcut.high y hy) (habsent y hy).symm
    · intro x hx y hy
      rcases mem_cons.1 hy with rfl | hy
      · exact hcut.low x hx
      · exact hPQ x hx y hy
  · intro x hx
    rcases hcases x hx with hx | rfl
    · exact (h.height_le x hx).trans (le_max_left ..)
    · exact le_max_right ..
  · exact max_le h.level_le hlevel

theorem insertNode_misplaces (h : Holds s N) (hlevel : newLevel ≤ MAX_LEVEL)
    (hnew : s.level < newLevel) {y : Tower} (hy : y ∈ N) (hheight : s.level ≤ y.height)
    (hlt : y.key < key) (update : Update)
    (hupdate : ∀ j, j ≤ s.level → ∃ l1 l2, lane j N = l1 ++ l2 ∧
      update.get j = some (some (l1.getLastD s.header))) (hint : Nat) :
    ∃ s' l, insertNode s key newLevel hint update = some s' ∧ levelKeys s' s.level = some l ∧
      ¬ l.Pairwise (· < ·) := by
  rcases patchUpdate_spec s.header (newLevel + 1 - s.level) s.level update (by omega)
    with ⟨update', hpatch, hget⟩
  -- below the old top level the recorded nodes, from there on the header
  have hsplit : ∀ j, ∃ l : List Ptr × List Ptr, l.1 ++ l.2 = lane j N ∧ (s.level ≤ j → l.1 = []) ∧
      (j ≤ newLevel → update'.get j = some (some (l.1.getLastD s.header))) := by
    intro j
    by_cases hj : j < s.level
    · rcases hupdate j hj.le with ⟨l1, l2, heq, hl1⟩
      refine ⟨(l1, l2), heq.symm, fun hge => by omega, fun _ => ?_⟩
      rwa [hget, if_neg (by omega)]
    · refine ⟨([], lane j N), rfl, fun _ => rfl, fun hjn => ?_⟩
      rw [hget, if_pos (by omega)]
      rfl
  choose parts hparts hempty hentries using hsplit
  rcases linkNode_spec h hlevel (fun j => (parts j).1) (fun j => (parts j).2) hparts
    hentries key hint with ⟨H', hlink, hlow, -, hkeys, hkey⟩
  have hchain := hlow s.level hnew.le
  have hback : (parts s.level).2 = lane s.level N := by
    have heq := hparts s.level
    rwa [hempty s.level le_rfl] at heq
  rw [hempty s.level le_rfl, hback] at hchain
  have hnodup : (s.header :: s.heap.freshAddr hint :: lane s.level N).Nodup := by
    refine (Perm.swap ..).nodup_iff.1 (nodup_cons.2 ⟨?_, h.lane_nodup s.level⟩)
    intro hmem
    exact h.fresh_notMem hint (((lane_sublist s.level N).cons_cons s.header).subset hmem)
  have hread := levelKeys_eq (s := ⟨H', max s.level newLevel, s.header⟩)
    (L := ⟨s.heap.freshAddr hint, key, newLevel⟩ :: N.filter fun x => s.level ≤ x.height)
    hchain hnodup (by
      intro x hx
      rcases mem_cons.1 hx with rfl | hx
      · exact hkey
      · exact hkeys x (mem_of_mem_filter hx))
  refine ⟨⟨H', max s.level newLevel, s.header⟩, _, ?_, hread, ?_⟩
  · simp [insertNode, patchLevels, if_pos hnew, hpatch, hlink]
  · intro hsorted
    have hmem : y.key ∈ (N.filter fun x => s.level ≤ x.height).map Tower.key :=
      mem_map_of_mem (mem_filter.2 ⟨hy, by simpa using hheight⟩)
    exact absurd ((pairwise_cons.1 hsorted).1 y.key hmem) (not_lt.2 hlt.le)

/-! ## Unlinking a node -/

variable {x : Tower}

theorem unlinkLevel_spec (hlinked : Linked (fun b => getForward H b i) (header :: lane i P ++
    x.addr :: lane i Q) none)
    (hnodup : (header :: lane i P ++ x.addr :: lane i Q).Nodup) :
    ∃ q H1, getForward H (pred header i P) i = some (some x.addr) ∧
      getForward H x.addr i = some q ∧ setForward H (pred header i P) i q = some H1 ∧
      Linked (fun b => getForward H1 b i) (header :: lane i P ++ lane i Q) none ∧
      (∀ b j, j ≠ i → getForward H1 b j = getForward H b j) ∧ ∀ b, getKey H1 b = getKey H b := by
  have hp : getForward H (pred header i P) i = some (some x.addr) := hlinked.last
  have hq : getForward H x.addr i = some ((lane i Q).head?.or none) := (linked_append.1 hlinked).2.1
  rcases setForward_spec hp ((lane i Q).head?.or none) with ⟨H1, hset, hget, hkey⟩
  refine ⟨_, H1, hp, hq, hset, ?_, ?_, hkey⟩
  · apply hlinked.unsplice_last hnodup
    · rw [hget, if_pos ⟨rfl, rfl⟩]
      exact hq.symm
    · intro b hbu _
      rw [hget, if_neg (by tauto)]
  · intro b j hj
    rw [hget, if_neg (by tauto)]

theorem unlinkLevels_spec {r : Nat}
    (hupdate : ∀ j, i ≤ j → j < i + r → update.get j = some (some (pred header j P)))
    (hlinked : ∀ j, i ≤ j → j < i + r →
      Linked (fun b => getForward H b j) (header :: lane j P ++ lane j (x :: Q)) none)
    (hnodup : (header :: (P ++ x :: Q).map Tower.addr).Nodup) :
    ∃ H', unlinkLevels update x.addr r i H = some H' ∧ (∀ j, i ≤ j → j < i + r → j ≤ x.height →
        Linked (fun b => getForward H' b j) (header :: lane j P ++ lane j Q) none) ∧
      (∀ b j, j < i ∨ i + r ≤ j ∨ x.height < j → getForward H' b j = getForward H b j) ∧
      ∀ b, getKey H' b = getKey H b := by
  have hlane : ∀ j, (header :: lane j P ++ lane j (x :: Q)).Nodup := by
    intro j
    rw [cons_append, ← lane_append]
    exact hnodup.sublist ((lane_sublist j _).cons_cons header)
  induction r generalizing i H with
  | zero =>
    refine ⟨H, rfl, ?_, fun b j _ => rfl, fun b => rfl⟩
    omega
  | succ r ih =>
    have hl := hlinked i le_rfl (by omega)
    have hn := hlane i
    by_cases hheight : i ≤ x.height
    · rw [lane_cons_of_le hheight] at hl hn
      rcases unlinkLevel_spec hl hn with ⟨q, H1, hp, hq, hset, hlinked1, hother1, hkey1⟩
      have hlinked' : ∀ j, i + 1 ≤ j → j < i + 1 + r →
          Linked (fun b => getForward H1 b j) (header :: lane j P ++ lane j (x :: Q)) none := by
        intro j hij hj
        exact (hlinked j (by omega) (by omega)).congr fun b _ => hother1 b j (by omega)
      rcases ih (fun j hij hj => hupdate j (by omega) (by omega)) hlinked'
        with ⟨H', hrun, hdone, hother, hkey⟩
      refine ⟨H', ?_, ?_, ?_, fun b => (hkey b).trans (hkey1 b)⟩
      · simp [unlinkLevels, hupdate i le_rfl (by omega), hp, hq, hset, hrun]
      · intro j hij hj hjx
        rcases eq_or_ne j i with rfl | hji
        · exact hlinked1.congr fun b _ => hother b j (.inl (Nat.lt_succ_self j))
        · exact hdone j (by omega) (by omega) hjx
      · intro b j hj
        rw [hother b j (by omega), hother1 b j (by omega)]
    · -- above the height of the node the predecessor leads past it
      have hlt : x.height < i := not_le.1 hheight
      rw [lane_cons_of_lt hlt] at hl
      have hp : getForward H (pred header i P) i = some ((lane i Q).head?.or none) := hl.last
      have hne : (lane i Q).head? ≠ some x.addr := by
        intro hhead
        have hmem : x.addr ∈ Q.map Tower.addr := (lane_sublist i Q).subset (mem_of_head? hhead)
        rw [map_append, map_cons] at hnodup
        have htail := (nodup_append.1 (nodup_cons.1 hnodup).2).2.1
        exact (nodup_cons.1 htail).1 hmem
      refine ⟨H, ?_, ?_, fun b j _ => rfl, fun b => rfl⟩
      · simp [unlinkLevels, hupdate i le_rfl (by omega), hp, if_neg hne]
      · omega

theorem lowerLevel_spec (H : Heap SkipListNode) (header : Ptr) (level : Nat)
    (hread : ∀ j, j ≤ level → ∃ p, getForward H header j = some p) :
    ∃ l, lowerLevel H header level = some l ∧ l ≤ level ∧
      (∀ j, l < j → j ≤ level → getForward H header j = some none) ∧
      (l = 0 ∨ getForward H header l ≠ some none) := by
  induction level with
  | zero =>
    refine ⟨0, rfl, le_rfl, ?_, .inl rfl⟩
    omega
  | succ level ih =>
    rcases hread (level + 1) le_rfl with ⟨p, hp⟩
    cases p with
    | none =>
      rcases ih fun j hj => hread j (by omega) with ⟨l, hrun, hle, hempty, htop⟩
      refine ⟨l, by simp [lowerLevel, hp, hrun], by omega, ?_, htop⟩
      intro j hl hj
      by_cases htop : j = level + 1
      · rw [htop, hp]
      · exact hempty j hl (by omega)
    | some p =>
      refine ⟨level + 1, by simp [lowerLevel, hp], le_rfl, ?_, .inr (by simp [hp])⟩
      omega

theorem getForward_free (hb : b ≠ a) (j : Nat) : getForward (H.free a) b j = getForward H b j := by
  rw [getForward, getForward, Heap.free_of_ne hb]

theorem getKey_free (hb : b ≠ a) : getKey (H.free a) b = getKey H b := by
  rw [getKey, getKey, Heap.free_of_ne hb]

theorem deleteNode_spec (h : Holds s (P ++ x :: Q))
    (hupdate : ∀ j, j ≤ s.level → update.get j = some (some (pred s.header j P))) :
    ∃ s', deleteNode s x.addr update = some s' ∧ Holds s' (P ++ Q) ∧ s'.header = s.header ∧
      s'.level ≤ s.level ∧
      (s'.level = 0 ∨ lane s'.level (P ++ Q) ≠ []) := by
  have hlevel := h.level_le
  have hx : x.height ≤ s.level := h.height_le x (by simp)
  have hlinked : ∀ j, j ≤ MAX_LEVEL →
      Linked (fun b => getForward s.heap b j) (s.header :: lane j P ++ lane j (x :: Q)) none := by
    intro j hj
    have hl := h.linked j hj
    rwa [lane_append] at hl
  rcases unlinkLevels_spec (r := s.level + 1) (i := 0) (fun j _ hj => hupdate j (by omega))
    (fun j _ hj => hlinked j (by omega)) h.nodup with ⟨H', hunlink, hdone, hother, hkey⟩
  -- the freed node is on none of the new levels
  have hperm : (s.header :: (P ++ x :: Q).map Tower.addr).Perm (x.addr :: s.header ::
    (P ++ Q).map Tower.addr) := by
    simp only [map_append]
    exact (perm_middle.cons s.header).trans (List.Perm.swap ..)
  rcases nodup_cons.1 (hperm.nodup_iff.1 h.nodup) with ⟨hxnot, hnodup⟩
  have hlinked' : ∀ j, j ≤ MAX_LEVEL →
      Linked (fun b => getForward (H'.free x.addr) b j) (s.header :: lane j (P ++ Q)) none := by
    intro j hj
    have hfree : ∀ b ∈ s.header :: lane j (P ++ Q), b ≠ x.addr := by
      rintro b hb rfl
      exact hxnot (((lane_sublist j (P ++ Q)).cons_cons s.header).subset hb)
    have hl : Linked (fun b => getForward H' b j) (s.header :: lane j (P ++ Q)) none := by
      rw [lane_append]
      by_cases hjx : j ≤ x.height
      · exact hdone j (Nat.zero_le _) (by omega) hjx
      · have hold := hlinked j hj
        rw [lane_cons_of_lt (not_le.1 hjx)] at hold
        exact hold.congr fun b _ => hother b j (.inr (.inr (not_le.1 hjx)))
    exact hl.congr fun b hb => getForward_free (hfree b hb) j
  rcases lowerLevel_spec (H'.free x.addr) s.header s.level
    (fun j hj => ⟨_, (hlinked' j (hj.trans hlevel)).1⟩) with ⟨l, hlower, hle, hempty, htop⟩
  refine ⟨⟨H'.free x.addr, l, s.header⟩, ?_, ⟨?_, hlinked', hnodup, ?_, ?_, hle.trans hlevel⟩, rfl,
    hle, ?_⟩
  · simp [deleteNode, hunlink, hlower]
  · intro y hy
    have hne : y.addr ≠ x.addr := by
      intro heq
      exact hxnot (mem_cons_of_mem _ (heq ▸ mem_map_of_mem hy))
    rw [getKey_free hne, hkey]
    apply h.key_eq y
    simp only [mem_append] at hy ⊢
    tauto
  · exact h.sorted.sublist ((sublist_cons_self x Q).append_left P)
  · intro y hy
    -- a tower above the new level would be seen from the header
    by_contra hgt
    have hheight : y.height ≤ s.level := h.height_le y (by
      simp only [mem_append] at hy ⊢
      tauto)
    have hnone := hempty y.height (not_le.1 hgt) hheight
    have hfirst : getForward (H'.free x.addr) s.header y.height =
        some ((lane y.height (P ++ Q)).head?.or none) :=
          (hlinked' y.height (hheight.trans hlevel)).1
    rw [Option.or_none, hnone, Option.some.injEq] at hfirst
    have hmem : y.addr ∈ lane y.height (P ++ Q) := mem_lane.2 ⟨y, hy, le_rfl, rfl⟩
    rw [head?_eq_none_iff.1 hfirst.symm] at hmem
    cases hmem
  · refine htop.imp_right fun hsome hnil => hsome ?_
    have hfirst := (hlinked' l (hle.trans hlevel)).1
    rwa [hnil] at hfirst

end SystemsLab.SkipList
