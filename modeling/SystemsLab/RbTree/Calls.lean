import Mathlib
import SystemsLab.RbTree.Delete

/-!
# Whole sequences of calls
-/

namespace SystemsLab.RbTree

open SearchTree RbTree.RBTree CallSequence

/-! ## Pointers in both directions -/

/-- Children point back to their parent, and a parent has its child on one side. -/
def Consistent (s : RBTree) (a : Ptr) : Prop :=
  (∀ d p, s.childOf d a = some p → p ≠ NIL → s.parentOf p = some a) ∧
    ∀ q, s.parentOf a = some q → (q = NIL ∧ s.root = a) ∨ ∃ d, s.childOf d q = some a

theorem exists_place {T : Shape} {a : Ptr} (h : a ∈ addrs T) :
    ∃ path l k c r, T = plug path (node l k ⟨a, c⟩ r) := by
  induction T with
  | null => cases h
  | node left key tag right ihl ihr =>
    simp only [addrs, List.mem_cons, List.mem_append] at h
    rcases h with rfl | h | h
    · exact ⟨[], left, key, tag.color, right, rfl⟩
    · rcases ihl h with ⟨path, l, k, c, r, rfl⟩
      refine ⟨path ++ [⟨.left, key, tag, right⟩], l, k, c, r, ?_⟩
      rw [plug_append]
      rfl
    · rcases ihr h with ⟨path, l, k, c, r, rfl⟩
      refine ⟨path ++ [⟨.right, key, tag, left⟩], l, k, c, r, ?_⟩
      rw [plug_append]
      rfl

theorem Rep.consistent {s : RBTree} {T : Shape} (h : Rep s T) {a : Ptr} (ha : a ∈ addrs T) :
    Consistent s a := by
  rcases exists_place ha with ⟨path, l, k, c, r, rfl⟩
  constructor
  · intro d p hchild hp
    rcases exists_sided d (t := node l k ⟨a, c⟩ r) (by simp) with ⟨near, k', tag, far, heq⟩
    have haddr : a = tag.addr := by
      have hptr := congrArg ptr heq
      rwa [ptr_node, ptr_sided] at hptr
    subst haddr
    rw [heq] at h
    have hnear : Rep s (plug (⟨d, k', tag, far⟩ :: path) near) := h
    rw [h.childOf_eq] at hchild
    cases hchild
    exact hnear.parentOf_ptr (mt hnear.ptr_eq_nil.2 hp)
  · intro q hq
    have hparent : s.parentOf a = some (holeParent path) := h.parentOf_ptr (by simp)
    rw [hparent] at hq
    cases hq
    rcases path with _ | ⟨f, path⟩
    · exact .inl ⟨rfl, h.root⟩
    · have hup : Rep s (plug path (sided f.side (node l k ⟨a, c⟩ r) f.key f.info f.sibling)) := h
      exact .inr ⟨f.side, hup.childOf_eq⟩

/-! ## The set behind the tree -/

/-- The memory holds a valid ordered tree with exactly the keys of `S`. -/
def Holds (s : RBTree) (S : Finset Int) : Prop :=
  ∃ T, Rep s T ∧ Valid T ∧ T.Ordered ∧ ∀ x, x ∈ T.keys ↔ x ∈ S

theorem holds_init : Holds init ∅ := by
  refine ⟨null, ⟨trivial, rfl, List.nodup_nil, NIL, ?_⟩, ⟨0, trivial, redBlack_null.2 rfl, ?_⟩,
    ordered_null, by simp⟩
  · exact Heap.alloc_self Heap.empty NIL (nilNode NIL)
  · exact fun _ => rfl

theorem call_holds (s : RBTree) (S : Finset Int) (c : Call) (h : Holds s S) :
    ∃ s', call s c = some s' ∧ Holds s' (c.toSetCall.effect S) := by
  rcases h with ⟨T, hrep, hvalid, hordered, hmem⟩
  cases c with
  | insert key hint =>
    rcases insert_spec hrep hvalid hordered key hint with ⟨s', T', hs', hrep', hv', ho', hmem'⟩
    refine ⟨s', hs', T', hrep', hv', ho', fun x => ?_⟩
    simp [hmem', hmem, Call.toSetCall, SetCall.effect]
  | delete key =>
    rcases delete_spec hrep hvalid hordered key with ⟨s', T', hs', hrep', hv', ho', hmem', -⟩
    refine ⟨s', hs', T', hrep', hv', ho', fun x => ?_⟩
    simp [hmem', hmem, Call.toSetCall, SetCall.effect]

/-- The keys inserted and not deleted since, in the order of the calls. -/
def keySetOf (calls : List Call) : Finset Int := keySet (calls.map Call.toSetCall)

theorem run_holds (calls : List Call) : ∃ s, run calls = some s ∧ Holds s (keySetOf calls) := by
  rcases runCalls_simulates (fun S (c : Call) => c.toSetCall.effect S) call_holds holds_init calls
    with ⟨s, hs, h⟩
  refine ⟨s, hs, ?_⟩
  rwa [keySetOf, keySet, List.foldl_map]

/-- After any calls from `init`, none of which fails: the memory holds a tree with black root and
black sentinel, without a red node below a red one, with the same number of black nodes on all ways
down, with strictly increasing keys, and with pointers that agree in both directions. -/
theorem red_black_invariant (calls : List Call) :
    ∃ s T, run calls = some s ∧ Rep s T ∧ (∀ a ∈ addrs T, Consistent s a) ∧
      s.colorOf s.root = some .black ∧ s.colorOf NIL = some .black ∧
      NoRedRed T ∧ (∃ n, BlackHeight T n) ∧ T.Ordered := by
  rcases run_holds calls with ⟨s, hs, T, hrep, hvalid, hordered, -⟩
  have hroot : Rep s (plug [] T) := hrep
  have hcolor : s.colorOf s.root = some .black := by
    rw [hrep.root, hroot.colorOf_eq, hvalid.rootColor_eq]
  have hnil : s.colorOf NIL = some .black := by
    rcases hrep.sentinel with ⟨parent, hcell⟩
    simp [colorOf, hcell, nilNode]
  rcases hvalid with ⟨n, hfits⟩
  exact ⟨s, T, hs, hrep, fun a ha => hrep.consistent ha, hcolor, hnil, hfits.tree.noRedRed,
    ⟨n, hfits.tree.blackHeight⟩, hordered⟩

theorem search_spec {s : RBTree} {T : Shape} (h : Rep s T) (ho : T.Ordered) (k : Int) :
    (k ∈ T.keys → ∃ p, search s k = some (some p) ∧ s.keyOf p = some k) ∧
    (k ∉ T.keys → search s k = some none) := by
  have hroot : Rep s (plug [] T) := h
  have hlocate := locate_spec k s.heap.brk h.realHeight_lt_brk hroot ho
  rw [← h.root] at hlocate
  rcases hlocate with ⟨hnot, hloc⟩ | ⟨path, l, tag, r, rfl, hmem, hloc⟩
  · refine ⟨fun hmem => absurd hmem hnot, fun _ => ?_⟩
    simp [search, hloc]
  · refine ⟨fun _ => ⟨tag.addr, ?_, ?_⟩, fun hnot => absurd hmem hnot⟩
    · have hnode : Rep s (plug path (sided .left l k tag r)) := h
      simp [search, hloc, hnode.addr_ne_nil]
    · have hnode : Rep s (plug path (sided .left l k tag r)) := h
      exact hnode.keyOf_eq

/-- After any calls from `init`, the in-order key sequence enumerates the set of the keys inserted
and not deleted since, `search` decides membership in it, and `delete` of another key changes
nothing. -/
theorem red_black_is_set (calls : List Call) : ∃ s T, run calls = some s ∧ Rep s T ∧
      T.keys = (keySetOf calls).sort (· ≤ ·) ∧ T.keys.Pairwise (· < ·) ∧
      (∀ k, (k ∈ keySetOf calls → ∃ p, search s k = some (some p) ∧ s.keyOf p = some k) ∧
        (k ∉ keySetOf calls → search s k = some none)) ∧ ∀ k, k ∉ keySetOf calls →
          delete s k = some s := by
  rcases run_holds calls with ⟨s, hs, T, hrep, hvalid, hordered, hmem⟩
  refine ⟨s, T, hs, hrep, hordered.keys_eq_sort hmem, hordered, fun k => ?_, fun k hk => ?_⟩
  · have hsearch := search_spec hrep hordered k
    rwa [hmem k] at hsearch
  · rcases delete_spec hrep hvalid hordered k with ⟨s', -, hs', -, -, -, -, hsame⟩
    rw [hs', hsame (mt (hmem k).1 hk)]

/-! ## The length of a search -/

theorem RedBlack.bounds {t : Shape} {n : Nat} (h : RedBlack t n) :
    2 ^ n ≤ t.keys.length + 1 ∧ t.realHeight ≤ 2 * n + if rootColor t = .red then 1 else 0 := by
  induction t generalizing n with
  | null =>
    obtain rfl := redBlack_null.1 h
    simp
  | node left key tag right ihl ihr =>
    rcases tag with ⟨a, color⟩
    rw [keys_node, List.length_append, List.length_cons, realHeight_node]
    cases color with
    | red =>
      rcases (redBlack_red (d := .left)).1 h with ⟨hl, hr, hcl, hcr⟩
      -- the children are black, so only this node adds to the height
      rcases ihl hl with ⟨hsizel, hheightl⟩
      rcases ihr hr with ⟨-, hheightr⟩
      simp only [hcl, hcr, reduceCtorEq, if_false] at hheightl hheightr
      simp only [rootColor, if_true]
      omega
    | black =>
      rcases (redBlack_black (d := .left)).1 h with ⟨m, rfl, hl, hr⟩
      rcases ihl hl with ⟨hsizel, hheightl⟩
      rcases ihr hr with ⟨hsizer, hheightr⟩
      split_ifs at hheightl hheightr <;> omega

/-- After any calls the loop of `search` ends after at most twice the logarithm of the
number of keys plus one. -/
theorem search_is_logarithmic (calls : List Call) : ∃ s, run calls = some s ∧
    ∀ k, ∃ x, locate k (2 * Nat.log 2 ((keySetOf calls).card + 1) + 1) s s.root = some x ∧
      (k ∈ keySetOf calls → s.keyOf x = some k) ∧ (k ∉ keySetOf calls → x = NIL) := by
  rcases run_holds calls with ⟨s, hs, T, hrep, ⟨n, hfits⟩, hordered, hmem⟩
  refine ⟨s, hs, fun k => ?_⟩
  rcases hfits.tree.bounds with ⟨hsize, hheight⟩
  rw [hordered.keys_eq_sort hmem, Finset.length_sort] at hsize
  rw [hfits.color trivial, if_neg nofun] at hheight
  have hlog := Nat.le_log_of_pow_le Nat.one_lt_two hsize
  have hroot : Rep s (plug [] T) := hrep
  have hlocate := locate_spec k (2 * Nat.log 2 ((keySetOf calls).card + 1) + 1) (by omega)
    hroot hordered
  rw [← hrep.root] at hlocate
  rcases hlocate with ⟨hnot, hloc⟩ | ⟨path, l, tag, r, rfl, hin, hloc⟩
  · exact ⟨NIL, hloc, fun hk => absurd ((hmem k).2 hk) hnot, fun _ => rfl⟩
  · have hnode : Rep s (plug path (sided .left l k tag r)) := hrep
    exact ⟨tag.addr, hloc, fun _ => hnode.keyOf_eq, fun hk => absurd ((hmem k).1 hin) hk⟩

end SystemsLab.RbTree
