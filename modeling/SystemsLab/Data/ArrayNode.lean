import SystemsLab.CLib.CArray

/-!
# The two arrays of a multiway node

A node of a multiway tree keeps its keys in the first `count` places of one array and, if it is not
a leaf, its children in the first `count + 1` places of another.  `Filled` says which lists these
are; its lemmas are the array operations that nodes are built and split with.
-/

namespace SystemsLab

open CArray List

/-- The keys and children that the two arrays hold; the places behind are not looked at. -/
structure Filled {κ : Type} {cap kidCap : Nat} (keys : CArray κ cap)
    (child : CArray (Option Nat) kidCap) (count : Nat) (leaf : Bool) (ks : List κ)
    (kids : List Nat) : Prop where
  le_cap : count ≤ cap
  keys_eq : keys.front count = ks
  lt_kidCap : leaf = false → count < kidCap
  kids_eq : leaf = false → child.front (count + 1) = kids.map some

namespace Filled

variable {κ : Type} {cap kidCap count : Nat} {keys : CArray κ cap}
  {child : CArray (Option Nat) kidCap}
  {leaf : Bool} {ks K J : List κ} {kids kA kB : List Nat} {c : Nat}

section

variable (h : Filled keys child count leaf ks kids)

include h

theorem count_eq : count = ks.length := by
  rw [← h.keys_eq, length_front _ h.le_cap]

theorem length_le : ks.length ≤ cap := by
  rw [← h.count_eq]
  exact h.le_cap

theorem key {i : Nat} {k : κ} (hk : ks[i]? = some k) : keys.get i = some k := by
  have hi : i < count := by
    rw [h.count_eq]
    exact (List.getElem?_eq_some_iff.1 hk).1
  rw [← getElem?_front _ hi, h.keys_eq, hk]

end

theorem kid (h : Filled keys child count false ks kids) {i : Nat} (hc : kids[i]? = some c)
    (hi : i ≤ ks.length) : child.get i = some (some c) := by
  have hcount := h.count_eq
  rw [← getElem?_front _ (show i < count + 1 by omega), h.kids_eq rfl, getElem?_map, hc]
  rfl

theorem take (h : Filled keys child count leaf ks kids) {mid : Nat} (hmid : mid ≤ ks.length) :
    Filled keys child mid leaf (ks.take mid) (kids.take (mid + 1)) := by
  have hcount := h.count_eq
  have hle := h.le_cap
  refine ⟨by omega, ?_, fun hleaf => ?_, fun hleaf => ?_⟩
  · rw [← h.keys_eq, take_front _ (by omega)]
  · have hlt := h.lt_kidCap hleaf
    omega
  · rw [map_take, ← h.kids_eq hleaf, take_front _ (by omega)]

theorem copy (h : Filled keys child count false ks kids) {off r : Nat} (hr : off + r = ks.length)
    (keys' : CArray κ cap) (child' : CArray (Option Nat) kidCap) :
    ∃ keys1 child1, keys.copyFrom off r 0 keys' = some keys1 ∧
      child.copyFrom off (r + 1) 0 child' = some child1 ∧
      Filled keys1 child1 r false (ks.drop off) (kids.drop off) := by
  have hcount := h.count_eq
  have hle := h.le_cap
  have hlt := h.lt_kidCap rfl
  rcases exists_copy keys off r keys' (by omega) (by omega) with ⟨keys1, hkeys, hfront⟩
  rcases exists_copy child off (r + 1) child' (by omega) (by omega) with ⟨child1, hchild, hfront'⟩
  refine ⟨keys1, child1, hkeys, hchild, by omega, ?_, fun _ => by omega, fun _ => ?_⟩
  · rw [hfront, show off + r = count by omega, h.keys_eq]
  · rw [hfront', show off + (r + 1) = count + 1 by omega, h.kids_eq rfl, map_drop]

theorem insertAt (h : Filled keys child count false (K ++ J) (kA ++ c :: kB))
    (hK : kA.length = K.length) (hroom : (K ++ J).length < cap)
    (hkids : (K ++ J).length + 1 < kidCap) (m : κ) (new : Nat) :
    ∃ child1 child2 keys1 keys2, child.shiftUp (K.length + 1) (count - K.length) = some child1 ∧
      child1.set (K.length + 1) (some new) = some child2 ∧
      keys.shiftUp K.length (count - K.length) = some keys1 ∧ keys1.set K.length m = some keys2 ∧
      Filled keys2 child2 (count + 1) false (K ++ m :: J) (kA ++ c :: new :: kB) := by
  have hcount := h.count_eq
  have hle : K.length ≤ count := by
    rw [hcount, length_append]
    omega
  rcases exists_insertAt child (c := count + 1) (K.length + 1) (by omega) (by omega)
    (some new) with ⟨child1, child2, hshift, hset, hchild⟩
  rcases exists_insertAt keys K.length hle (by omega) m with ⟨keys1, keys2, hshift', hset', hkeys⟩
  rw [show count + 1 - (K.length + 1) = count - K.length by omega] at hshift
  refine ⟨child1, child2, keys1, keys2, hshift, hset, hshift', hset', by omega, ?_,
    fun _ => by omega, fun _ => ?_⟩
  · rw [hkeys, h.keys_eq, take_left, drop_left]
  · have hsplit : kA ++ c :: kB = (kA ++ [c]) ++ kB := by simp
    have hlen : K.length + 1 = ((kA ++ [c]).map some).length := by simp [hK]
    rw [hchild, h.kids_eq rfl, hsplit, map_append, hlen, take_left, drop_left]
    simp

theorem scanUp [LinearOrder κ] (h : Filled keys child count leaf ks kids)
    (hsorted : ks.Pairwise (· ≤ ·)) (key : κ) :
    ∃ pos, keys.scanUp key count 0 = some pos ∧ pos ≤ ks.length ∧ (∀ x ∈ ks.take pos, x < key) ∧
      ∀ x ∈ ks.drop pos, key ≤ x := by
  rw [← h.count_eq]
  rw [← h.keys_eq] at hsorted ⊢
  exact scanUp_front key h.le_cap hsorted

end Filled

theorem Filled.insertSorted {κ : Type} [LinearOrder κ] {cap kidCap count : Nat}
    {keys : CArray κ cap} {child : CArray (Option Nat) kidCap} {ks : List κ} {kids : List Nat}
    (h : Filled keys child count true ks kids) (hroom : ks.length < cap)
    (hsorted : ks.Pairwise (· ≤ ·)) (key : κ) :
    ∃ keys1 pos keys2, shiftWhile key count keys = some (keys1, pos) ∧
      keys1.set pos key = some keys2 ∧
      Filled keys2 child (count + 1) true (ks.take pos ++ key :: ks.drop pos) kids ∧
      (∀ x ∈ ks.take pos, x ≤ key) ∧ ∀ x ∈ ks.drop pos, key < x := by
  have hcount := h.count_eq
  have hfront := h.keys_eq
  rcases exists_insertSorted key (a := keys) (c := count) (by omega) (by rwa [hfront])
    with ⟨keys1, pos, keys2, hshift, hset, -, hkeys, hlow, hhigh⟩
  rw [hfront] at hkeys hlow hhigh
  exact ⟨keys1, pos, keys2, hshift, hset, ⟨by omega, hkeys, nofun, nofun⟩, hlow, hhigh⟩

end SystemsLab
