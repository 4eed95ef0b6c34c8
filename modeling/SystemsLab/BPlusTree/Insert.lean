import SystemsLab.BPlusTree.Model
import SystemsLab.Data.Separators

/-!
# One insertion of a new key

A tree is one leaf or a root above a row of leaves: the root is only made when a leaf is split, and
a root that is full takes no further child.  `Row H ls` is the invariant of the leaves, `Rooted`
that of a root above them, whose keys are the first ones of the leaves behind the first.

An insertion turns one leaf into one or two (`Inserted`, `Grew`).  `Adds` says what happens to the
leaf keys: the new key comes in, one key may be lost, and the first key stays when it is smaller.
That is enough for the keys of the root.
-/

namespace SystemsLab.BPlusTree

open CArray Chain List Option Heap

/-! ## Leaf keys -/

/-- The leaf keys after an insertion that may lose a key. -/
structure Adds (key : Int) (L L' : List Int) : Prop where
  sorted : L'.Pairwise (· < ·)
  subset : ∀ x ∈ L', x = key ∨ x ∈ L
  head : ∀ s, L.head? = some s → s < key → L'.head? = some s
  length_le : L'.length ≤ L.length + 1

variable {key : Int} {L L' F G P Q : List Int}

theorem Adds.frame (h : Adds key L L') (hsorted : (F ++ (L ++ G)).Pairwise (· < ·))
    (hF : ∀ x ∈ F, x < key) (hG : ∀ x ∈ G, key < x) :
    Adds key (F ++ (L ++ G)) (F ++ (L' ++ G)) := by
  rcases pairwise_append.1 hsorted with ⟨hFs, hLG, hFLG⟩
  rcases pairwise_append.1 hLG with ⟨-, hGs, hLGs⟩
  refine ⟨?_, ?_, ?_, ?_⟩
  · refine pairwise_append.2 ⟨hFs, pairwise_append.2 ⟨h.sorted, hGs, ?_⟩, ?_⟩
    · intro x hx y hy
      rcases h.subset x hx with rfl | hx
      · exact hG y hy
      · exact hLGs x hx y hy
    · intro x hx y hy
      rcases mem_append.1 hy with hy | hy
      · rcases h.subset y hy with rfl | hy
        · exact hF x hx
        · exact hFLG x hx y (mem_append_left _ hy)
      · exact hFLG x hx y (mem_append_right _ hy)
  · intro x hx
    simp only [mem_append] at hx ⊢
    rcases hx with hx | hx | hx
    · exact .inr (.inl hx)
    · rcases h.subset x hx with rfl | hx
      · exact .inl rfl
      · exact .inr (.inr (.inl hx))
    · exact .inr (.inr (.inr hx))
  · intro s hs hlt
    cases F with
    | cons x F => exact hs
    | nil =>
      cases L with
      | cons y L =>
        simp only [nil_append] at hs ⊢
        rw [head?_append, h.head s hs hlt]
        rfl
      | nil =>
        -- then the first key is behind the place
        exact absurd hlt (not_lt.2 (hG s (mem_of_head? hs)).le)
  · have hlen := h.length_le
    simp only [length_append]
    omega

/-- The key at its place in a leaf, and what is left of the leaf keys when the last ones are cut. -/
theorem adds_take (hsorted : (P ++ Q).Pairwise (· < ·)) (hP : ∀ x ∈ P, x < key)
    (hQ : ∀ x ∈ Q, key < x) (m : Nat) : Adds key (P ++ Q) ((P ++ key :: Q).take (m + 1)) := by
  rcases pairwise_append.1 hsorted with ⟨hPs, hQs, hPQ⟩
  have hwhole : (P ++ key :: Q).Pairwise (· < ·) := by
    refine pairwise_append.2 ⟨hPs, pairwise_cons.2 ⟨hQ, hQs⟩, ?_⟩
    intro x hx y hy
    rcases mem_cons.1 hy with rfl | hy
    · exact hP x hx
    · exact hPQ x hx y hy
  refine ⟨Pairwise.sublist (take_sublist _ _) hwhole, ?_, ?_, ?_⟩
  · intro x hx
    have hmem := mem_of_mem_take hx
    simp only [mem_append, mem_cons] at hmem ⊢
    tauto
  · intro s hs hlt
    cases P with
    | cons x P => exact hs
    | nil => exact absurd hlt (not_lt.2 (hQ s (mem_of_head? hs)).le)
  · have hlen' := length_take_le' (m + 1) (P ++ key :: Q)
    simp only [length_append] at hlen' ⊢
    omega

/-! ## Rows of leaves -/

/-- The cell of a leaf shows its keys. -/
def LeafAt (H : Heap BPlusTreeNode) (l : Leaf Int) : Prop :=
  ∃ n, H.cell l.addr = some n ∧ Shows n true l.keys []

def chainKeys (ls : List (Leaf Int)) : List Int := (ls.map Leaf.keys).flatten

/-- The leaves are linked from left to right, none is empty or overfull, and the keys increase. -/
structure Row (H : Heap BPlusTreeNode) (ls : List (Leaf Int)) : Prop where
  cells : ∀ l ∈ ls, LeafAt H l
  nodup : (ls.map Leaf.addr).Nodup
  loaded : ∀ l ∈ ls, 1 ≤ l.keys.length ∧ l.keys.length ≤ MAX
  linked : Linked (nextLeaf H) (ls.map Leaf.addr) none
  sorted : (chainKeys ls).Pairwise (· < ·)

/-- The leaves `U` replace `l` after the insertion of `key`. -/
structure Inserted (key : Int) (H : Heap BPlusTreeNode) (l : Leaf Int) (H' : Heap BPlusTreeNode)
    (U : List (Leaf Int)) : Prop where
  cells : ∀ u ∈ U, LeafAt H' u
  nodup : (U.map Leaf.addr).Nodup
  loaded : ∀ u ∈ U, 1 ≤ u.keys.length ∧ u.keys.length ≤ MAX
  grows : Grows H H' [l.addr] (U.map Leaf.addr)
  link : ∀ e, nextLeaf H l.addr = some e → Linked (nextLeaf H') (U.map Leaf.addr) e
  first : (U.map Leaf.addr).head? = some l.addr
  adds : Adds key l.keys (chainKeys U)

/-- The result of `insert` fits the leaves. -/
inductive Grew (l : Leaf Int) : List (Leaf Int) → Option (Int × Ptr) → Prop
  | kept (l' : Leaf Int) : l'.addr = l.addr → Grew l [l'] none
  | split (l' l'' : Leaf Int) (s : Int) : l'.addr = l.addr → l''.keys.head? = some s →
      Grew l [l', l''] (some (s, l''.addr))

section Rows

variable {H H' : Heap BPlusTreeNode} {l : Leaf Int} {ls A B U : List (Leaf Int)}

theorem LeafAt.lt_brk (h : LeafAt H l) : l.addr < H.brk := by
  rcases h with ⟨n, hn, -⟩
  exact Heap.lt_brk hn

theorem LeafAt.congr (h : LeafAt H l) (hcell : H'.cell l.addr = H.cell l.addr) : LeafAt H' l := by
  rcases h with ⟨n, hn, hshows⟩
  exact ⟨n, hcell.trans hn, hshows⟩

theorem Row.congr (h : Row H ls) (hcell : ∀ a ∈ ls.map Leaf.addr, H'.cell a = H.cell a) :
    Row H' ls := by
  refine ⟨?_, h.nodup, h.loaded, ?_, h.sorted⟩
  · intro l hl
    exact (h.cells l hl).congr (hcell _ (mem_map_of_mem hl))
  · apply h.linked.congr
    intro a ha
    exact nextLeaf_congr (hcell a ha)

/-- The frame rule of a row: the leaves beside the changed one stay as they were. -/
theorem Row.replace (h : Row H (A ++ l :: B)) (hins : Inserted key H l H' U)
    (hsorted : (chainKeys (A ++ (U ++ B))).Pairwise (· < ·)) : Row H' (A ++ (U ++ B)) := by
  have hnodup := h.nodup
  have hlinked := h.linked
  simp only [map_append] at hnodup hlinked
  rcases nodup_append.1 hnodup with ⟨hA, hlB, hdisj⟩
  rcases nodup_cons.1 hlB with ⟨hlnot, hB⟩
  rcases linked_append.1 hlinked with ⟨hfront, hlink, hback⟩
  have hbeside : ∀ k, k ∈ A ∨ k ∈ B → LeafAt H k ∧ k.addr ≠ l.addr := by
    rintro k (hk | hk)
    · exact ⟨h.cells k (by simp [hk]), hdisj _ (mem_map_of_mem hk) _ mem_cons_self⟩
    · refine ⟨h.cells k (by simp [hk]), ?_⟩
      intro heq
      exact hlnot (heq ▸ mem_map_of_mem hk)
  have hcell : ∀ k, k ∈ A ∨ k ∈ B → H'.cell k.addr = H.cell k.addr := by
    intro k hk
    rcases hbeside k hk with ⟨hat, hne⟩
    exact hins.grows.frame _ (by simpa using hne) hat.lt_brk
  -- an address of the new leaves is that of the old leaf or unused before
  have hnew : ∀ u ∈ U, ∀ k, k ∈ A ∨ k ∈ B → u.addr ≠ k.addr := by
    intro u hu k hk
    rcases hbeside k hk with ⟨hat, hne⟩
    have hlt := hat.lt_brk
    rcases hins.grows.fresh _ (mem_map_of_mem hu) with hold | hge
    · rw [mem_singleton.1 hold]
      exact hne.symm
    · omega
  have hsame : ∀ C : List (Leaf Int), (∀ k ∈ C, k ∈ A ∨ k ∈ B) →
      ∀ a ∈ C.map Leaf.addr, nextLeaf H' a = nextLeaf H a := by
    intro C hC a ha
    rcases List.mem_map.1 ha with ⟨k, hk, rfl⟩
    exact nextLeaf_congr (hcell k (hC k hk))
  refine ⟨?_, ?_, ?_, ?_, hsorted⟩
  · intro k hk
    simp only [mem_append] at hk
    rcases hk with hk | hk | hk
    · exact (hbeside k (.inl hk)).1.congr (hcell k (.inl hk))
    · exact hins.cells k hk
    · exact (hbeside k (.inr hk)).1.congr (hcell k (.inr hk))
  · rw [map_append, map_append]
    refine nodup_append.2 ⟨hA, nodup_append.2 ⟨hins.nodup, hB, ?_⟩, ?_⟩
    · simp only [List.mem_map, forall_exists_index, and_imp, forall_apply_eq_imp_iff₂]
      exact fun u hu k hk => hnew u hu k (.inr hk)
    · intro b hb c hc
      rcases List.mem_map.1 hb with ⟨k, hk, rfl⟩
      rcases mem_append.1 hc with hc | hc
      · rcases List.mem_map.1 hc with ⟨u, hu, rfl⟩
        exact (hnew u hu k (.inl hk)).symm
      · exact hdisj _ hb c (mem_cons_of_mem _ hc)
  · intro k hk
    simp only [mem_append] at hk
    rcases hk with hk | hk | hk
    · exact h.loaded k (by simp [hk])
    · exact hins.loaded k hk
    · exact h.loaded k (by simp [hk])
  · rw [map_append, map_append]
    refine linked_append.2 ⟨?_, linked_append.2 ⟨hins.link _ hlink, ?_⟩⟩
    · rw [head?_append, hins.first]
      exact hfront.congr (hsame A fun k hk => .inl hk)
    · exact hback.congr (hsame B fun k hk => .inr hk)

end Rows

/-! ## The leaf -/

variable {H : Heap BPlusTreeNode} {a : Ptr} {ks : List Int} {n n' : BPlusTreeNode}

theorem inserted_leaf (hn : H.cell a = some n) (hshows : Shows n' true L [])
    (hnext : n'.next = n.next) (hlen : 1 ≤ L.length ∧ L.length ≤ MAX) (hadds : Adds key ks L) :
    Inserted key H ⟨a, ks⟩ (H.adjust a fun _ => n') [⟨a, L⟩] := by
  refine ⟨?_, nodup_singleton a, ?_, ⟨le_rfl, ?_, fun b hb => .inl hb⟩, ?_, rfl, ?_⟩
  · intro u hu
    rw [mem_singleton.1 hu]
    exact ⟨n', adjust_self hn, hshows⟩
  · intro u hu
    rwa [mem_singleton.1 hu]
  · intro b hb _
    exact adjust_of_ne fun heq => hb (by simp [heq])
  · intro e hlink
    have hsame : nextLeaf (H.adjust a fun _ => n') a = nextLeaf H a := by
      rw [nextLeaf_eq (adjust_self hn), hnext, nextLeaf_eq hn]
    exact ⟨hsame.trans hlink, trivial⟩
  · simpa [chainKeys] using hadds

/-- The two leaves after the split, without the last of the `MAX + 1` keys. -/
def leftKeys (L : List Int) : List Int := L.take ((MAX + 1) / 2)

def rightKeys (L : List Int) : List Int := (L.take MAX).drop ((MAX + 1) / 2)

theorem left_append_right (L : List Int) : leftKeys L ++ rightKeys L = L.take MAX := by
  have hleft : leftKeys L = (L.take MAX).take ((MAX + 1) / 2) := by
    rw [leftKeys, take_take]
    rfl
  rw [hleft, rightKeys, take_append_drop]

theorem length_leftKeys (hlen : L.length = MAX + 1) : (leftKeys L).length = 2 := by
  rw [leftKeys, length_take, hlen]
  rfl

theorem length_rightKeys (hlen : L.length = MAX + 1) : (rightKeys L).length = 1 := by
  rw [rightKeys, length_drop, length_take, hlen]
  rfl

/-- A split makes two leaves of `MAX + 1` keys, and the last key is lost. -/
theorem splitLeaf_spec (hn : H.cell a = some n) (hshows : Shows n' true L [])
    (hnext : n'.next = n.next) (hlen : L.length = MAX + 1) (hadds : Adds key ks (L.take MAX)) :
    ∃ H' s, splitLeaf (H.adjust a fun _ => n') a = some (H', s, H.brk) ∧
      (rightKeys L).head? = some s ∧
      Inserted key H ⟨a, ks⟩ H' [⟨a, leftKeys L⟩, ⟨H.brk, rightKeys L⟩] := by
  have hn' : (H.adjust a fun _ => n').cell a = some n' := adjust_self hn
  have hlt := lt_brk hn
  have hleft_len := length_leftKeys hlen
  have hright_len := length_rightKeys hlen
  rcases rightLeaf_spec hshows hlen with ⟨new, hnew, hnew_shows, hnew_next⟩
  have hhead : (rightKeys L)[0]? = some (rightKeys L)[0] := getElem?_eq_getElem (by omega)
  rcases splitLeaf_cells hn' hnew (hnew_shows.filled.key hhead)
    with ⟨H', hsplit, hbrk, hcell_a, hcell_new, hother⟩
  rw [adjust_brk] at hsplit hbrk hcell_a hcell_new hother
  have hmid : (MAX + 1) / 2 ≤ L.length := by
    rw [hlen]
    decide
  have hleft : Shows { n' with count := (MAX + 1) / 2, next := some H.brk } true (leftKeys L) [] :=
    ⟨hshows.isleaf, hshows.filled.take hmid⟩
  refine ⟨H', (rightKeys L)[0], hsplit, by rw [head?_eq_getElem?, hhead], ?_, ?_, ?_,
    ⟨?_, ?_, ?_⟩, ?_, rfl, ?_⟩
  · simp only [mem_cons, not_mem_nil, or_false, forall_eq_or_imp, forall_eq]
    exact ⟨⟨_, hcell_a, hleft⟩, ⟨new, hcell_new, hnew_shows⟩⟩
  · simpa using hlt.ne
  · simp only [mem_cons, forall_eq_or_imp, hleft_len, hright_len]
    decide
  · rw [hbrk]
    exact Nat.le_succ _
  · intro b hb hblt
    have hba : b ≠ a := fun heq => hb (by simp [heq])
    rw [hother b hba hblt.ne, adjust_of_ne hba]
  · intro b hb
    simp only [map_cons, map_nil, mem_cons, not_mem_nil, or_false] at hb ⊢
    rcases hb with rfl | rfl
    · exact .inl rfl
    · exact .inr le_rfl
  · -- the new leaf takes over the link of the old one
    intro e hlink
    have hsame : nextLeaf H' H.brk = nextLeaf H a := by
      rw [nextLeaf_eq hcell_new, hnew_next, hnext, nextLeaf_eq hn]
    exact ⟨nextLeaf_eq hcell_a, hsame.trans hlink, trivial⟩
  · simpa [chainKeys, left_append_right] using hadds

/-- `insert` at a leaf: the key comes in, and if the leaf was full one key is lost. -/
theorem insert_leaf {l : Leaf Int} (hat : LeafAt H l)
    (hle : 1 ≤ l.keys.length ∧ l.keys.length ≤ MAX) (hsorted : l.keys.Pairwise (· < ·))
    (hkey : key ∉ l.keys) (fuel : Nat) :
    ∃ H' r U, insert key (fuel + 1) H l.addr = some (H', r) ∧ Grew l U r ∧ Inserted key H l H' U ∧
      ((r = none ∧ (chainKeys U).Perm (key :: l.keys)) ∨
        (r ≠ none ∧ l.keys.length = MAX ∧ (chainKeys U).length = MAX)) := by
  rcases l with ⟨a, ks⟩
  rcases hat with ⟨n, hn, hshows⟩
  rcases insertIntoLeaf_spec hshows hle.2 (hsorted.imp le_of_lt) key
    with ⟨n', P, Q, hinsert, rfl, hP, hQ, hn'_shows, hnext⟩
  have hP' : ∀ x ∈ P, x < key := by
    intro x hx
    exact lt_of_le_of_ne (hP x hx) fun heq => hkey (heq ▸ mem_append_left _ hx)
  have hperm : (P ++ key :: Q).Perm (key :: (P ++ Q)) := perm_middle
  have hlen : (P ++ key :: Q).length = (P ++ Q).length + 1 := hperm.length_eq
  have hcount := hshows.count_eq
  dsimp only at hn hle hcount hlen
  by_cases hroom : n.count < MAX
  · have hadds := adds_take hsorted hP' hQ (P ++ Q).length
    rw [take_of_length_le hlen.le] at hadds
    refine ⟨_, none, [⟨a, P ++ key :: Q⟩], ?_, Grew.kept _ rfl,
      inserted_leaf hn hn'_shows hnext ⟨by omega, by omega⟩ hadds,
      .inl ⟨rfl, by simp [chainKeys]⟩⟩
    simp only [insert, insertAtLeaf, hn, hshows.isleaf, if_true, hinsert, modify_eq hn,
      if_pos hroom, bind_eq_bind, bind_some]
  · have hfull : (P ++ Q).length = MAX := by omega
    rcases splitLeaf_spec hn hn'_shows hnext (by omega) (adds_take hsorted hP' hQ (MAX - 1))
      with ⟨H', s, hsplit, hhead, hins⟩
    refine ⟨H', some (s, H.brk), _, ?_, Grew.split ⟨a, leftKeys _⟩ ⟨H.brk, rightKeys _⟩ s rfl hhead,
      hins,
      .inr ⟨some_ne_none _, hfull, ?_⟩⟩
    · simp [insert, insertAtLeaf, hn, hshows.isleaf, hinsert, modify_eq hn, if_neg hroom, hsplit]
    · simp only [chainKeys, map_cons, map_nil, flatten_cons, flatten_nil, append_nil,
        left_append_right]
      rw [length_take_of_le (by omega)]

/-! ## The root -/

/-- A root above a row of leaves. -/
structure Rooted (H : Heap BPlusTreeNode) (a : Ptr) (ks : List Int) (ls : List (Leaf Int)) :
    Prop where
  row : Row H ls
  root : ∃ n, H.cell a = some n ∧ Shows n false ks (ls.map Leaf.addr)
  apart : a ∉ ls.map Leaf.addr
  length : ls.length = ks.length + 1
  guides : Guides ks (ls.map Leaf.keys)

/-- The place of a key among the lists that the keys of a root separate. -/
structure Place (key : Int) (K J : List Int) (A : List (List Int)) (l : List Int)
    (B : List (List Int)) : Prop where
  front_len : A.length = K.length
  low : ∀ k ∈ K, k < key
  high : ∀ k ∈ J, key < k
  guides : Guides (K ++ J) (A ++ l :: B)
  sorted : (A ++ l :: B).flatten.Pairwise (· < ·)

variable {H1 H2 : Heap BPlusTreeNode} {K J : List Int} {s : Int}

namespace Place

variable {A B : List (List Int)} {l l' l'' : List Int} (hp : Place key K J A l B)

include hp

theorem guides_parts : Guides K (A ++ [l]) ∧ J.map some = B.map head? :=
  (Guides.split hp.front_len).1 hp.guides

theorem sorted_parts : (A.flatten ++ (l ++ B.flatten)).Pairwise (· < ·) := by
  have hsorted := hp.sorted
  rwa [flatten_append] at hsorted

theorem sorted_front : (A ++ [l]).flatten.Pairwise (· < ·) := by
  have hsorted := hp.sorted_parts
  rw [← append_assoc] at hsorted
  rw [flatten_append, flatten_singleton]
  exact (pairwise_append.1 hsorted).1

theorem front_lt : ∀ x ∈ A.flatten, x < key := by
  intro x hx
  rcases Guides.exists_gt hp.front_len hp.guides_parts.1 hp.sorted_front hx with ⟨k, hk, hlt⟩
  exact hlt.trans (hp.low k hk)

theorem sorted_back : (l ++ B.flatten).Pairwise (· < ·) := (pairwise_append.1 hp.sorted_parts).2.1

theorem lt_back : ∀ x ∈ B.flatten, key < x := by
  intro x hx
  rcases Guides.exists_le hp.guides_parts.2 (pairwise_append.1 hp.sorted_back).2.1 hx
    with ⟨k, hk, hle⟩
  exact (hp.high k hk).trans_le hle

theorem low_le (hadds : Adds key l L') : ∀ k ∈ K, ∀ x ∈ L', k ≤ x := by
  intro k hk x hx
  rcases hadds.subset x hx with rfl | hx
  · exact (hp.low k hk).le
  · exact Guides.le_of_mem hp.guides_parts.1 hp.sorted_front hk hx

theorem lt_high (hadds : Adds key l L') : ∀ k ∈ J, ∀ x ∈ L', x < k := by
  intro k hk x hx
  rcases hadds.subset x hx with rfl | hx
  · exact hp.high k hk
  · have hmem := (Guides.sublist_of_heads hp.guides_parts.2).subset hk
    exact (pairwise_append.1 hp.sorted_back).2.2 x hx k hmem

/-- The first key of a leaf stays when the leaf is not the first one. -/
theorem head_stays (hadds : Adds key l L') : A = [] ∨ L'.head? = l.head? := by
  by_cases hA : A = []
  · exact .inl hA
  · rcases Guides.last_head hp.guides_parts.1 hA with ⟨k, hk, hhead⟩
    refine .inr ?_
    rw [hadds.head k hhead (hp.low k hk), hhead]

theorem guides_kept (hadds : Adds key l l') : Guides (K ++ J) (A ++ l' :: B) :=
  (Guides.split hp.front_len).2
    ⟨hp.guides_parts.1.replace_last (hp.head_stays hadds), hp.guides_parts.2⟩

theorem guides_split (hadds : Adds key l (l' ++ l'')) (hne : l' ≠ []) (hhead : l''.head? = some s) :
    Guides (K ++ s :: J) (A ++ l' :: l'' :: B) := by
  have hstays := hp.head_stays hadds
  rw [head?_append_of_ne_nil _ hne] at hstays
  refine (Guides.split hp.front_len).2 ⟨hp.guides_parts.1.replace_last hstays, ?_⟩
  rw [map_cons, map_cons, hhead, hp.guides_parts.2]

theorem mem_flatten_iff : key ∈ (A ++ l :: B).flatten ↔ key ∈ l := by
  simp only [flatten_append, flatten_cons, mem_append]
  constructor
  · rintro (hA | hl | hB)
    · exact (hp.front_lt key hA).false.elim
    · exact hl
    · exact (hp.lt_back key hB).false.elim
  · intro hl
    exact .inr (.inl hl)

end Place

variable {l : Leaf Int} {ls A B U : List (Leaf Int)}

/-- The leaf where the search in a root stops. -/
theorem Rooted.exists_place (hT : Rooted H a ks ls) (key : Int) :
    ∃ n K J A l B c, H.cell a = some n ∧ Shows n false ks (ls.map Leaf.addr) ∧
      ks = K ++ J ∧ ls = A ++ l :: B ∧ A.length = K.length ∧ (∀ k ∈ K, k < key) ∧
      (∀ k ∈ J, key ≤ k) ∧ n.keys.scanUp key n.count 0 = some c ∧
      n.child.get c = some (some l.addr) := by
  rcases hT.root with ⟨n, hn, hshows⟩
  have hks : ks.Pairwise (· ≤ ·) :=
    (Pairwise.sublist hT.guides.sublist_flatten hT.row.sorted).imp le_of_lt
  rcases hshows.filled.scanUp hks key with ⟨pos, hscan, hpos, hlow, hhigh⟩
  rcases LevelTree.exists_split_at hT.length hpos with ⟨A, l, B, rfl, hA, -⟩
  refine ⟨n, ks.take pos, ks.drop pos, A, l, B, pos, hn, hshows, (take_append_drop pos ks).symm,
    rfl, hA, hlow, hhigh, hscan, ?_⟩
  apply hshows.filled.kid _ hpos
  rw [← length_take_of_le hpos, ← hA]
  simp

/-- The row after the insertion into one leaf, with the root not yet changed. -/
theorem Rooted.replace_leaf (hT : Rooted H a (K ++ J) (A ++ l :: B))
    (hp : Place key K J (A.map Leaf.keys) l.keys (B.map Leaf.keys)) (hins : Inserted key H l H1 U) :
    Row H1 (A ++ (U ++ B)) ∧ a ∉ (A ++ (U ++ B)).map Leaf.addr ∧ H1.cell a = H.cell a ∧
      Adds key (chainKeys (A ++ l :: B)) (chainKeys (A ++ (U ++ B))) := by
  have hadds := hins.adds.frame hp.sorted_parts hp.front_lt hp.lt_back
  have hbefore : chainKeys (A ++ l :: B) =
      (A.map Leaf.keys).flatten ++ (l.keys ++ (B.map Leaf.keys).flatten) := by simp [chainKeys]
  have hafter : chainKeys (A ++ (U ++ B)) =
      (A.map Leaf.keys).flatten ++ (chainKeys U ++ (B.map Leaf.keys).flatten) := by simp [chainKeys]
  rcases hT.root with ⟨n, hn, -⟩
  have hlt := lt_brk hn
  have hapart := hT.apart
  simp only [map_append, map_cons, mem_append, mem_cons, not_or] at hapart
  rcases hapart with ⟨hA, hl, hB⟩
  rw [← hbefore, ← hafter] at hadds
  refine ⟨hT.row.replace hins hadds.sorted, ?_, hins.grows.frame a (by simpa using hl) hlt, hadds⟩
  simp only [map_append, mem_append, not_or]
  refine ⟨hA, ?_, hB⟩
  intro hmem
  rcases hins.grows.fresh a hmem with hold | hge
  · exact hl (mem_singleton.1 hold)
  · omega

/-- The way back up: the root gets the new leaf, if there is one and the root has room. -/
theorem afterChild_spec (hT : Rooted H a (K ++ J) (A ++ l :: B))
    (hp : Place key K J (A.map Leaf.keys) l.keys (B.map Leaf.keys)) {r r' : Option (Int × Ptr)}
    (hgrew : Grew l U r) (hins : Inserted key H l H1 U)
    (hafter : afterChild a (H1, r) = some (H2, r')) :
    r' = none ∧ ∃ ks', Rooted H2 a ks' (A ++ (U ++ B)) := by
  rcases hT.replace_leaf hp hins with ⟨hrow, hapart, hcell, -⟩
  rcases hT.root with ⟨n, hn, hshows⟩
  rw [hn] at hcell
  have hlen := hT.length
  have hadds := hins.adds
  simp only [length_append, length_cons] at hlen
  cases hgrew with
  | kept l' haddr =>
    cases hafter
    simp only [chainKeys] at hadds
    refine ⟨rfl, K ++ J, hrow, ⟨n, hcell, by simpa [haddr] using hshows⟩, hapart, ?_, ?_⟩
    · simp only [length_append, length_cons, length_nil]
      omega
    · simpa using hp.guides_kept hadds
  | split l' l'' s haddr hhead =>
    have hcount := hshows.count_eq
    by_cases hroom : n.count < MAX
    · simp only [chainKeys, map_cons, map_nil, flatten_cons, flatten_nil, append_nil] at hadds
      have hmem : s ∈ l'.keys ++ l''.keys := mem_append_right _ (mem_of_head? hhead)
      have hne : l'.keys ≠ [] := length_pos_iff.1 (hins.loaded l' mem_cons_self).1
      have hks : (K ++ J).Pairwise (· ≤ ·) :=
        (Pairwise.sublist hp.guides.sublist_flatten hp.sorted).imp le_of_lt
      rw [map_append, map_cons] at hshows
      rcases insertIntoInternal_spec hshows (by simpa using hp.front_len) (hcount ▸ hroom) hks
        (fun k hk => hp.low_le hadds k hk s hmem)
          (fun k hk => hp.lt_high hadds k hk s hmem) l''.addr
        with ⟨n', hinsert, hn'_shows⟩
      simp only [afterChild, insertGrown, hcell, hinsert, modify_eq hcell, if_pos hroom,
        bind_eq_bind, bind_some] at hafter
      obtain ⟨rfl, rfl⟩ := hafter
      refine ⟨rfl, K ++ s :: J, hrow.congr fun b hb =>
        adjust_of_ne (ne_of_mem_of_not_mem hb hapart),
        ⟨n', adjust_self hcell, by simpa [haddr] using hn'_shows⟩, hapart, ?_, ?_⟩
      · simp only [length_append, length_cons, length_nil]
        omega
      · simpa using hp.guides_split hadds hne hhead
    · -- a full root has no place for the leaf
      have hle := hshows.filled.lt_kidCap rfl
      have hfull : n.count = MAX := by omega
      simp [afterChild, insertGrown, hcell, insertIntoInternal_full hfull] at hafter

/-- `insert` at a root, unless it fails. -/
theorem insert_root {fuel : Nat} {r : Option (Int × Ptr)} (hT : Rooted H a ks ls)
    (hkey : key ∉ chainKeys ls) (hinsert : insert key fuel H a = some (H2, r)) :
    r = none ∧ ∃ ks' ls', Rooted H2 a ks' ls' ∧ Adds key (chainKeys ls) (chainKeys ls') := by
  rcases hT.exists_place key
    with ⟨n, K, J, A, l, B, c, hn, hshows, rfl, rfl, hA, hlow, hhigh, hscan, hchild⟩
  rcases fuel with _ | fuel
  · cases hinsert
  have hguides := hT.guides
  have hsorted := hT.row.sorted
  rw [chainKeys] at hkey hsorted
  rw [map_append, map_cons] at hkey hguides hsorted
  -- a new key is not a key of the root, because these are leaf keys
  have hp : Place key K J (A.map Leaf.keys) l.keys (B.map Leaf.keys) := by
    refine ⟨by rw [length_map, hA], hlow, fun k hk => ?_, hguides, hsorted⟩
    refine lt_of_le_of_ne (hhigh k hk) fun heq => hkey (heq ▸ ?_)
    exact hguides.sublist_flatten.subset (mem_append_right _ hk)
  simp only [insert, hn, hshows.isleaf, hscan, hchild, bind_eq_bind, bind_some] at hinsert
  rcases bind_eq_some_iff.1 hinsert with ⟨⟨H1, r1⟩, hrun, hafter⟩
  rcases fuel with _ | fuel
  · cases hrun
  have hl : l ∈ A ++ l :: B := by simp
  rcases insert_leaf (hT.row.cells l hl) (hT.row.loaded l hl)
    (pairwise_append.1 hp.sorted_back).1 (fun hmem => hkey (hp.mem_flatten_iff.2 hmem)) fuel
    with ⟨H', r', U, hrun', hgrew, hins, -⟩
  cases hrun'.symm.trans hrun
  rcases hT.replace_leaf hp hins with ⟨-, -, -, hadds⟩
  rcases afterChild_spec hT hp hgrew hins hafter with ⟨hr, ks', hT'⟩
  exact ⟨hr, ks', _, hT', hadds⟩

end SystemsLab.BPlusTree
