import SystemsLab.Data.Chain
import SystemsLab.SkipList.Model

/-!
# What a skip list holds, and the search

The abstract list is a list of towers in the order of their keys; level `i` is the list of the
towers of height at least `i` (`lane`), so that the levels are sublists of each other by
construction.  `Holds s N` says that the heap links every level accordingly.

A search for a key cuts the towers into those before the key and the rest.  On every level it stops
at the last tower before the cut (`pred`), and starts the next level from there.
-/

namespace SystemsLab.SkipList

open Chain List Option

structure Tower where
  addr : Ptr
  key : Int
  height : Nat

/-- The addresses of the nodes on level `i`. -/
def lane (i : Nat) (N : List Tower) : List Ptr := (N.filter fun x => i ≤ x.height).map Tower.addr

variable {i j : Nat} {N P Q : List Tower} {x : Tower}

@[simp] theorem lane_append : lane i (P ++ Q) = lane i P ++ lane i Q := by
  simp [lane]

theorem lane_cons_of_le (h : i ≤ x.height) : lane i (x :: N) = x.addr :: lane i N := by
  simp [lane, h]

theorem lane_cons_of_lt (h : x.height < i) : lane i (x :: N) = lane i N := by
  simp [lane, h]

variable {a : Ptr}

theorem mem_lane : a ∈ lane i N ↔ ∃ x ∈ N, i ≤ x.height ∧ x.addr = a := by
  simp [lane, and_assoc]

@[simp] theorem lane_zero : lane 0 N = N.map Tower.addr := by
  simp [lane]

theorem lane_eq_nil (h : ∀ x ∈ N, x.height < i) : lane i N = [] := by
  simpa [lane] using h

theorem lane_sublist (i : Nat) (N : List Tower) : (lane i N).Sublist (N.map Tower.addr) :=
  filter_sublist.map _

theorem lane_subset (hij : i ≤ j) (ha : a ∈ lane j N) : a ∈ lane i N := by
  rcases mem_lane.1 ha with ⟨x, hx, hj, rfl⟩
  exact mem_lane.2 ⟨x, hx, hij.trans hj, rfl⟩

/-- The heap holds the towers `N` in this order. -/
structure Holds (s : State) (N : List Tower) : Prop where
  key_eq : ∀ x ∈ N, getKey s.heap x.addr = some x.key
  linked : ∀ i, i ≤ MAX_LEVEL → Linked (fun a => getForward s.heap a i) (s.header :: lane i N) none
  nodup : (s.header :: N.map Tower.addr).Nodup
  sorted : N.Pairwise fun x y => x.key < y.key
  height_le : ∀ x ∈ N, x.height ≤ s.level
  level_le : s.level ≤ MAX_LEVEL

namespace Holds

variable {s : State}

theorem lane_nodup (h : Holds s N) (i : Nat) : (s.header :: lane i N).Nodup :=
  h.nodup.sublist ((lane_sublist i N).cons_cons s.header)

theorem allocated (h : Holds s N) :
    ∀ a ∈ s.header :: N.map Tower.addr, ∃ n, s.heap.cell a = some n := by
  intro a ha
  have hlinked := h.linked 0 (Nat.zero_le _)
  rw [lane_zero] at hlinked
  rcases hlinked.exists_next ha with ⟨p, hp⟩
  rcases bind_eq_some_iff.1 hp with ⟨n, hn, -⟩
  exact ⟨n, hn⟩

theorem length_lt_brk (h : Holds s N) : N.length < s.heap.brk := by
  have hlen := Heap.length_le_brk h.nodup h.allocated
  rwa [length_cons, length_map] at hlen

theorem lane_length_lt (h : Holds s N) (i : Nat) : (lane i N).length < s.heap.brk := by
  have hle := (lane_sublist i N).length_le
  rw [length_map] at hle
  exact hle.trans_lt h.length_lt_brk

theorem eq_of_key_eq (h : Holds s N) {y : Tower} (hx : x ∈ N) (hy : y ∈ N) (hkey : x.key = y.key) :
    x = y := by
  have hkeys : (N.map Tower.key).Nodup := pairwise_map.2 (h.sorted.imp fun hlt => hlt.ne)
  exact inj_on_of_nodup_map hkeys hx hy hkey

end Holds

/-! ## The cut at a key -/

/-- The towers before a key and the others. -/
structure Cut (key : Int) (P Q : List Tower) : Prop where
  low : ∀ x ∈ P, x.key < key
  high : ∀ x ∈ Q, key ≤ x.key

theorem exists_cut (hsorted : N.Pairwise fun x y => x.key < y.key) (key : Int) :
    ∃ P Q, N = P ++ Q ∧ Cut key P Q := by
  induction N with
  | nil => exact ⟨[], [], rfl, by simp, by simp⟩
  | cons x N ih =>
    rcases pairwise_cons.1 hsorted with ⟨hx, hN⟩
    by_cases hlt : x.key < key
    · rcases ih hN with ⟨P, Q, rfl, hcut⟩
      refine ⟨x :: P, Q, rfl, ?_, hcut.high⟩
      intro y hy
      rcases mem_cons.1 hy with rfl | hy
      · exact hlt
      · exact hcut.low y hy
    · refine ⟨[], x :: N, rfl, by simp, ?_⟩
      intro y hy
      rcases mem_cons.1 hy with rfl | hy
      · exact not_lt.1 hlt
      · exact (not_lt.1 hlt).trans (hx y hy).le

/-- Where a search stops on level `i`. -/
def pred (header : Ptr) (i : Nat) (P : List Tower) : Ptr := (lane i P).getLastD header

theorem getLastD_mem (l : List Ptr) (c : Ptr) : l.getLastD c ∈ c :: l := by
  rcases exists_eq_append_getLastD c l with ⟨l', hl'⟩
  rw [hl']
  simp

theorem pred_mem (header : Ptr) (i : Nat) (P : List Tower) : pred header i P ∈ header :: lane i P :=
  getLastD_mem _ _

/-! ## The loops of a search -/

variable {s : State} {key : Int} {H : Heap SkipListNode} {c : Ptr} {fuel k : Nat} {L : List Tower}

theorem advance_spec {A B : List Ptr}
    (hlinked : Linked (fun a => getForward H a i) (c :: A ++ B) none)
    (hA : ∀ a ∈ A, ∃ k, getKey H a = some k ∧ k < key)
    (hB : ∀ b, B.head? = some b → ∃ k, getKey H b = some k ∧ key ≤ k) (hfuel : A.length < fuel) :
    advance H key i fuel c = some (A.getLastD c) := by
  induction A generalizing c fuel with
  | nil =>
    rcases fuel with _ | fuel
    · omega
    have hnext : getForward H c i = some (B.head?.or none) := hlinked.1
    rw [or_none] at hnext
    have hstop : isBefore H key B.head? = some false := by
      rcases hhead : B.head? with _ | b
      · rfl
      · rcases hB b hhead with ⟨k, hk, hle⟩
        simp [isBefore, hk, hle]
    simp only [advance, hnext, hstop, bind_eq_bind, bind_some]
    rfl
  | cons a A ih =>
    rcases fuel with _ | fuel
    · omega
    have hnext : getForward H c i = some (some a) := hlinked.1
    rcases hA a mem_cons_self with ⟨k, hk, hlt⟩
    have hgo : isBefore H key (some a) = some true := by simp [isBefore, hk, hlt]
    have hrest :=
      ih hlinked.2 (fun b hb => hA b (mem_cons_of_mem _ hb)) (Nat.lt_of_succ_lt_succ hfuel)
    simp only [advance, hnext, hgo, bind_eq_bind, bind_some, if_true]
    rw [hrest, getLastD_cons]

theorem advance_lane (h : Holds s (P ++ Q)) (hcut : Cut key P Q) (hi : i ≤ MAX_LEVEL)
    (hc : c ∈ s.header :: lane i P) :
    advance s.heap key i s.heap.brk c = some (pred s.header i P) := by
  rcases append_of_mem hc with ⟨l, A, hsplit⟩
  have hlinked := h.linked i hi
  rw [lane_append, ← cons_append, hsplit, append_assoc, linked_append] at hlinked
  have hmem : ∀ a ∈ A, a ∈ lane i P := by
    intro a ha
    have hin : a ∈ s.header :: lane i P := by
      rw [hsplit]
      exact mem_append_right _ (mem_cons_of_mem _ ha)
    rcases mem_cons.1 hin with rfl | hin
    · -- the header comes first, so it is not behind `c`
      have hnodup := h.lane_nodup i
      rw [lane_append, ← cons_append, hsplit] at hnodup
      rcases l with _ | ⟨b, l⟩
      · obtain ⟨rfl, -⟩ := cons_eq_cons.1 hsplit
        simp [ha] at hnodup
      · obtain ⟨rfl, -⟩ := cons_eq_cons.1 hsplit
        simp [ha] at hnodup
    · exact hin
  have hadv : advance s.heap key i s.heap.brk c = some (A.getLastD c) := by
    apply advance_spec hlinked.2
    · intro a ha
      rcases mem_lane.1 (hmem a ha) with ⟨x, hx, -, rfl⟩
      exact ⟨x.key, h.key_eq x (mem_append_left _ hx), hcut.low x hx⟩
    · intro b hb
      rcases mem_lane.1 (mem_of_head? hb) with ⟨x, hx, -, rfl⟩
      exact ⟨x.key, h.key_eq x (mem_append_right _ hx), hcut.high x hx⟩
    · have hlen := h.lane_length_lt i
      have hle : A.length ≤ (lane i P).length := by
        have hlen' := congrArg List.length hsplit
        simp only [length_cons, length_append] at hlen'
        omega
      rw [lane_append, length_append] at hlen
      omega
  have hlast : A.getLastD c = pred s.header i P := by
    rcases exists_eq_append_getLastD c A with ⟨l', hl'⟩
    rcases exists_eq_append_getLastD s.header (lane i P) with ⟨l'', hl''⟩
    rw [hl', hl'', ← append_assoc] at hsplit
    exact (singleton_inj.1 (append_inj' hsplit rfl).2).symm
  rw [hadv, hlast]

theorem findUpdate_spec (h : Holds s (P ++ Q)) (hcut : Cut key P Q)
    (hk : k ≤ MAX_LEVEL + 1) (hc : c ∈ s.header :: lane (k - 1) P) (update : Update) :
    ∃ update', findUpdate s.heap key k c update =
      some (if k = 0 then c else pred s.header 0 P, update') ∧
      ∀ j, update'.get j = if j < k then some (some (pred s.header j P)) else update.get j := by
  induction k generalizing c update with
  | zero => exact ⟨update, rfl, fun j => rfl⟩
  | succ k ih =>
    have hadv := advance_lane h hcut (i := k) (by omega) hc
    rcases CArray.exists_set update (i := k) (by omega) (some (pred s.header k P))
      with ⟨update1, hset, hget⟩
    -- a node on one level is on the level below too, so the search can go on there
    have hdown : pred s.header k P ∈ s.header :: lane (k - 1) P := by
      rcases mem_cons.1 (pred_mem s.header k P) with heq | hmem
      · rw [heq]
        exact mem_cons_self
      · exact mem_cons_of_mem _ (lane_subset (Nat.sub_le k 1) hmem)
    rcases ih (by omega) hdown update1 with ⟨update', hrun, hget'⟩
    refine ⟨update', ?_, fun j => ?_⟩
    · simp only [findUpdate, hadv, hset, hrun, bind_eq_bind, bind_some]
      by_cases hzero : k = 0
      · simp [hzero]
      · simp [hzero]
    · rw [hget', hget]
      rcases eq_or_ne j k with rfl | hjk
      · simp
      · by_cases hlt : j < k
        · rw [if_pos hlt, if_pos (by omega)]
        · rw [if_neg hlt, if_neg hjk, if_neg (by omega)]

theorem exists_update (h : Holds s N) (key : Int) : ∃ P Q update, N = P ++ Q ∧ Cut key P Q ∧
      findUpdate s.heap key (s.level + 1) s.header (CArray.fill none) =
        some (pred s.header 0 P, update) ∧
      ∀ j, j ≤ s.level → update.get j = some (some (pred s.header j P)) := by
  rcases exists_cut h.sorted key with ⟨P, Q, rfl, hcut⟩
  have hlevel := h.level_le
  rcases findUpdate_spec h hcut (k := s.level + 1) (by omega) mem_cons_self (CArray.fill none) with
    ⟨update, hrun, hget⟩
  refine ⟨P, Q, update, rfl, hcut, hrun, fun j hj => ?_⟩
  rw [hget, if_pos (Nat.lt_succ_of_le hj)]

theorem descend_of_findUpdate {r : Ptr}
    {update update' : Update} (h : findUpdate H key k c update = some (r, update')) :
    descend H key k c = some r := by
  induction k generalizing c update with
  | zero =>
    cases h
    rfl
  | succ k ih =>
    simp only [findUpdate, bind_eq_bind, bind_eq_some_iff] at h
    rcases h with ⟨c', hadv, update1, -, hrest⟩
    simp only [descend, hadv]
    exact ih hrest

theorem next_pred (h : Holds s (P ++ Q)) :
    getForward s.heap (pred s.header 0 P) 0 = some (Q.head?.map Tower.addr) := by
  have hlinked := h.linked 0 (Nat.zero_le _)
  rw [lane_append] at hlinked
  have hlast := hlinked.last
  rwa [or_none, lane_zero (N := Q), head?_map] at hlast

theorem Cut.mem_iff (hcut : Cut key P Q)
    (hsorted : (P ++ Q).Pairwise fun x y : Tower => x.key < y.key) :
    (∃ x ∈ P ++ Q, x.key = key) ↔ ∃ x Q', Q = x :: Q' ∧ x.key = key := by
  constructor
  · rintro ⟨x, hx, heq⟩
    rcases mem_append.1 hx with hx | hx
    · exact absurd heq (hcut.low x hx).ne
    · cases Q with
      | nil => cases hx
      | cons y Q =>
        refine ⟨y, Q, rfl, ?_⟩
        rcases mem_cons.1 hx with rfl | hx
        · exact heq
        · -- a tower before it would have a smaller key
          have hlt := (pairwise_cons.1 (pairwise_append.1 hsorted).2.1).1 x hx
          exact absurd (hcut.high y mem_cons_self) (not_le.2 (heq ▸ hlt))
  · rintro ⟨x, Q', rfl, heq⟩
    exact ⟨x, by simp, heq⟩

theorem hasKey_head (h : Holds s (P ++ Q)) (hcut : Cut key P Q) :
    hasKey s.heap key (Q.head?.map Tower.addr) = some (decide (∃ x ∈ P ++ Q, x.key = key)) := by
  have hiff := hcut.mem_iff h.sorted
  cases Q with
  | nil =>
    have hno : ¬ ∃ x ∈ P ++ [], x.key = key := by
      rw [hiff]
      simp
    simp only [head?_nil, map_none, hasKey, hno, decide_false]
  | cons y Q =>
    have hy : getKey s.heap y.addr = some y.key := h.key_eq y (by simp)
    have hfirst : (∃ x ∈ P ++ y :: Q, x.key = key) ↔ y.key = key := by
      rw [hiff]
      simp
    simp only [head?_cons, map_some, hasKey, hy, hfirst]

theorem search_spec (h : Holds s N) (key : Int) :
    ∃ p, search s key = some p ∧ ∀ a, p = some a ↔ ∃ x ∈ N, x.key = key ∧ x.addr = a := by
  rcases exists_update h key with ⟨P, Q, update, rfl, hcut, hrun, -⟩
  have hdescend := descend_of_findUpdate hrun
  have hhas := hasKey_head h hcut
  refine ⟨if ∃ x ∈ P ++ Q, x.key = key then Q.head?.map Tower.addr else none, ?_, fun a => ?_⟩
  · simp only [search, hdescend, next_pred h, hhas, bind_eq_bind, bind_some, decide_eq_true_eq]
  · split_ifs with hin
    · rcases (hcut.mem_iff h.sorted).1 hin with ⟨x, Q', rfl, hx⟩
      rw [head?_cons, map_some, some.injEq]
      constructor
      · exact fun heq => ⟨x, by simp, hx, heq⟩
      · rintro ⟨y, hy, hkey, rfl⟩
        rw [h.eq_of_key_eq (by simp) hy (hx.trans hkey.symm)]
    · exact ⟨nofun, fun ⟨x, hx, hkey, _⟩ => absurd ⟨x, hx, hkey⟩ hin⟩

theorem search_isSome (h : Holds s N) {p : Option Ptr} (hp : search s key = some p) :
    p.isSome ↔ ∃ x ∈ N, x.key = key := by
  rcases search_spec h key with ⟨p', hp', hfound⟩
  obtain rfl : p' = p := some.inj (hp'.symm.trans hp)
  rw [isSome_iff_exists]
  constructor
  · rintro ⟨a, ha⟩
    rcases (hfound a).1 ha with ⟨x, hx, hkey, -⟩
    exact ⟨x, hx, hkey⟩
  · rintro ⟨x, hx, hkey⟩
    exact ⟨x.addr, (hfound x.addr).2 ⟨x, hx, hkey, rfl⟩⟩

theorem walkLevel_spec (hlinked : Linked (fun a => getForward H a i) (L.map Tower.addr) none)
    (hkey : ∀ x ∈ L, getKey H x.addr = some x.key) (hfuel : L.length ≤ fuel) :
    walkLevel H i fuel (L.map Tower.addr).head? = some (L.map Tower.key) := by
  induction L generalizing fuel with
  | nil => cases fuel <;> rfl
  | cons x L ih =>
    rcases fuel with _ | fuel
    · simp at hfuel
    have hnext : getForward H x.addr i = some (L.map Tower.addr).head? := by
      have hlink := hlinked.1
      rwa [or_none] at hlink
    have hrest :=
      ih hlinked.2 (fun y hy => hkey y (mem_cons_of_mem _ hy)) (Nat.le_of_succ_le_succ hfuel)
    simp only [map_cons, head?_cons, walkLevel, hkey x mem_cons_self, hnext, hrest,
      bind_eq_bind, bind_some]

theorem levelKeys_eq (hlinked : Linked (fun a => getForward s.heap a i) (s.header ::
    L.map Tower.addr) none)
    (hnodup : (s.header :: L.map Tower.addr).Nodup)
    (hkey : ∀ x ∈ L, getKey s.heap x.addr = some x.key) :
    levelKeys s i = some (L.map Tower.key) := by
  have hlen : L.length + 1 ≤ s.heap.brk := by
    have hle := Heap.length_le_brk hnodup fun a ha => by
      rcases hlinked.exists_next ha with ⟨p, hp⟩
      rcases bind_eq_some_iff.1 hp with ⟨n, hn, -⟩
      exact ⟨n, hn⟩
    rwa [length_cons, length_map] at hle
  rcases hlinked with ⟨hfirst, hrest⟩
  rw [or_none] at hfirst
  simp only [levelKeys, hfirst]
  exact walkLevel_spec hrest hkey (by omega)

theorem levelKeys_spec (h : Holds s N) (hi : i ≤ MAX_LEVEL) :
    levelKeys s i = some ((N.filter fun x => i ≤ x.height).map Tower.key) :=
  levelKeys_eq (h.linked i hi) (h.lane_nodup i) fun x hx => h.key_eq x (mem_of_mem_filter hx)

end SystemsLab.SkipList
