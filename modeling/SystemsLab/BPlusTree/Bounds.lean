import SystemsLab.BPlusTree.Model

/-!
# The insertion of `b-plus-tree.c` with the arrays at their declared sizes

The fourth insertion is the first one that finds a full leaf.  It writes `keys[MAX]`, whatever the
key is (`insert_full`), so `insertKey` stays inside the arrays for at most `MAX` insertions.
-/

namespace SystemsLab

open List Heap CArray

theorem insert_full {α : Type} [LinearOrder α] {n : Nat} (key : α) (a : CArray α n) :
    ((shiftWhile key n a).bind fun r => r.1.set r.2 key) = none := by
  cases n with
  | zero => rfl
  | succ k =>
    rcases exists_get a (Nat.lt_succ_self k) with ⟨x, hx⟩
    have hout : ∀ v, a.set (k + 1) v = none := fun v => dif_neg (lt_irrefl _)
    by_cases hlt : key < x
    · -- the first element to move has no place
      simp [shiftWhile, hx, hout]
    · simp [shiftWhile, hx, hout]

namespace BPlusTree
namespace Bounds

open CallSequence

def run (keys : List Int) : Option (TreeOf 0) := runCalls insertKey emptyTree keys

/-! ## A leaf with room, and a full one -/

variable {leaf : NodeOf 0} {key : Int} {t : TreeOf 0}

theorem exists_insertIntoLeaf (leaf : NodeOf 0) (h : leaf.count < MAX) (key : Int) :
    ∃ leaf', insertIntoLeaf leaf key = some leaf' ∧ leaf'.count = leaf.count + 1 ∧
      leaf'.isleaf = leaf.isleaf := by
  rcases shiftWhile_spec key leaf.count leaf.keys h with ⟨pos, keys, -, -, hshift⟩
  have hpos := shiftWhile_le hshift
  rcases exists_set keys (lt_of_le_of_lt hpos h) key with ⟨keys', hkeys', -⟩
  simp [insertIntoLeaf, hshift, hkeys']

theorem insertIntoLeaf_full (h : leaf.count = MAX) (key : Int) :
    insertIntoLeaf leaf key = none := by
  have hfull : ((shiftWhile key MAX leaf.keys).bind fun r => r.1.set r.2 key) = none :=
    insert_full key leaf.keys
  rw [insertIntoLeaf, h]
  cases hshift : shiftWhile key MAX leaf.keys with
  | none => rfl
  | some r =>
    rw [hshift, Option.bind_some] at hfull
    simp [hfull]

/-! ## Sequences of insertions -/

/-- The tree is one leaf with `c` keys. -/
structure OneLeaf (t : TreeOf 0) (c : Nat) : Prop where
  exists_root : ∃ root leaf, t.root = some root ∧ t.heap.cell root = some leaf ∧ leaf.isleaf ∧
    leaf.count = c
  unique : ∀ a n, t.heap.cell a = some n → t.root = some a

theorem oneLeaf_first (key : Int) : ∃ t, insertKey emptyTree key = some t ∧ OneLeaf t 1 := by
  rcases exists_insertIntoLeaf (createNode true) (by decide) key with ⟨leaf, hleaf, hcount, hkind⟩
  let heap : Heap (NodeOf 0) := empty
  refine ⟨⟨heap.alloc heap.brk leaf, some heap.brk⟩, ?_, ?_, ?_⟩
  · rw [insertKey, hleaf]
    rfl
  · exact ⟨_, leaf, rfl, alloc_brk_self .., hkind, hcount⟩
  · intro a n hn
    by_contra ha
    rw [alloc_brk_of_ne fun heq => ha (congrArg some heq.symm)] at hn
    cases hn

theorem insertKey_eq {root : Nat} (hroot : t.root = some root)
    (hleaf : t.heap.cell root = some leaf) (hkind : leaf.isleaf) (key : Int) :
    insertKey t key = (insertAtLeaf t.heap root leaf key).bind (growRoot root) := by
  obtain ⟨fuel, hfuel⟩ : ∃ fuel, t.heap.brk = fuel + 1 :=
    ⟨t.heap.brk - 1, by have := lt_brk hleaf; omega⟩
  simp [insertKey, hroot, hfuel, insert, hleaf, if_pos hkind]

theorem OneLeaf.insert {c : Nat} (h : OneLeaf t c) (hc : c < MAX) (key : Int) :
    ∃ t', insertKey t key = some t' ∧ OneLeaf t' (c + 1) := by
  rcases h.exists_root with ⟨root, leaf, hroot, hleaf, hkind, rfl⟩
  rcases exists_insertIntoLeaf leaf hc key with ⟨leaf', hleaf', hcount, hkind'⟩
  refine ⟨⟨t.heap.adjust root fun _ => leaf', some root⟩, ?_, ?_, ?_⟩
  · rw [insertKey_eq hroot hleaf hkind]
    simp [insertAtLeaf, hleaf', modify_eq hleaf, if_pos hc, growRoot]
  · exact ⟨root, leaf', rfl, adjust_self hleaf, hkind'.trans hkind, hcount⟩
  · intro a n hn
    by_contra ha
    have hne : a ≠ root := fun heq => ha (congrArg some heq.symm)
    rw [adjust_of_ne hne] at hn
    exact ha (hroot.symm.trans (h.unique a n hn))

theorem OneLeaf.insert_full (h : OneLeaf t MAX) (key : Int) : insertKey t key = none := by
  rcases h.exists_root with ⟨root, leaf, hroot, hleaf, hkind, hcount⟩
  rw [insertKey_eq hroot hleaf hkind]
  simp [insertAtLeaf, insertIntoLeaf_full hcount]

theorem OneLeaf.runCalls {c : Nat} (h : OneLeaf t c) (keys : List Int)
    (hkeys : c + keys.length ≤ MAX) :
    ∃ t', runCalls insertKey t keys = some t' ∧ OneLeaf t' (c + keys.length) := by
  induction keys generalizing t c with
  | nil => exact ⟨t, rfl, h⟩
  | cons key keys ih =>
    rw [length_cons] at hkeys ⊢
    rcases h.insert (by omega) key with ⟨t1, h1, hleaf1⟩
    rcases ih hleaf1 (by omega) with ⟨t2, h2, hleaf2⟩
    refine ⟨t2, by rw [CallSequence.runCalls, h1]; exact h2, ?_⟩
    rwa [add_assoc, add_comm 1] at hleaf2

theorem exists_run (keys : List Int) (hpos : 0 < keys.length) (hle : keys.length ≤ MAX) :
    ∃ t, run keys = some t ∧ OneLeaf t keys.length := by
  cases keys with
  | nil => exact hpos.false.elim
  | cons key keys =>
    rw [length_cons] at hle ⊢
    rcases oneLeaf_first key with ⟨t1, h1, hleaf1⟩
    rcases hleaf1.runCalls keys (by omega) with ⟨t2, h2, hleaf2⟩
    refine ⟨t2, by rw [run, runCalls, h1]; exact h2, ?_⟩
    rwa [add_comm] at hleaf2

theorem run_long {keys : List Int} (h : MAX < keys.length) : run keys = none := by
  rw [← take_append_drop MAX keys, run, runCalls_append]
  rcases exists_run (keys.take MAX) (by rw [length_take]; unfold MAX at *; omega)
    (length_take_le ..) with ⟨t, ht, hleaf⟩
  rw [length_take, Nat.min_eq_left h.le] at hleaf
  rw [run] at ht
  rw [ht, Option.bind_some]
  cases hrest : keys.drop MAX with
  | nil =>
    have := drop_eq_nil_iff.1 hrest
    omega
  | cons key rest =>
    rw [runCalls, hleaf.insert_full]
    rfl

/-- The insertions stay inside the arrays, and the counts inside `MAX`, exactly if there are at most
`MAX` of them. -/
theorem arrays_in_bounds_iff (keys : List Int) :
    (∃ t, run keys = some t ∧ ∀ a n, t.heap.cell a = some n → n.count ≤ MAX) ↔
    keys.length ≤ MAX := by
  constructor
  · rintro ⟨t, ht, -⟩
    by_contra hlong
    rw [run_long (Nat.lt_of_not_le hlong)] at ht
    cases ht
  · intro hle
    rcases Nat.eq_zero_or_pos keys.length with hzero | hpos
    · rw [length_eq_zero_iff.1 hzero]
      exact ⟨emptyTree, rfl, fun a n hn => nomatch hn⟩
    · rcases exists_run keys hpos hle with ⟨t, ht, hleaf⟩
      refine ⟨t, ht, fun a n hn => ?_⟩
      rcases hleaf.exists_root with ⟨root, leaf, hroot, hcell, -, hcount⟩
      obtain rfl : root = a := Option.some_inj.1 (hroot.symm.trans (hleaf.unique a n hn))
      rw [hcell] at hn
      cases hn
      omega

/-- After three keys the root is a full leaf; for the fourth one `insertIntoLeaf` writes `keys[3]`.
-/
theorem fourth_key_overruns :
    (∃ t root leaf, run [10, 20, 30] = some t ∧ t.root = some root ∧ t.heap.cell root = some leaf ∧
      leaf.count = MAX ∧ insertIntoLeaf leaf 40 = none) ∧ run [10, 20, 30, 40] = none := by
  refine ⟨?_, run_long (by decide)⟩
  rcases exists_run [10, 20, 30] (by decide) (by decide) with ⟨t, ht, hleaf⟩
  rcases hleaf.exists_root with ⟨root, leaf, hroot, hcell, -, hcount⟩
  exact ⟨t, root, leaf, ht, hroot, hcell, hcount, insertIntoLeaf_full hcount 40⟩

end Bounds
end BPlusTree
end SystemsLab
