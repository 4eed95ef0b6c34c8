import SystemsLab.StringLru.Model
import Mathlib.Data.List.Chain

/-!
# The nodes in the order of their last use

`Rep` says that the nodes `as` are the cached keys, the last one used first.  A `next` pointer
always leads to a node behind it, so that a search comes to an end, and the first key is found from
its bucket at once.

As long as no bucket is shared, more is true (`Tidy`): all buckets lead to their nodes at once, and
a `next` pointer is matched by the `prev` pointer of the node it leads to.  As long as only the
first and the last node are used, the `prev` pointers are the whole list (`Listed`), and the tail is
the oldest node.
-/

namespace SystemsLab.StringLru

open List Option

open FileCache (hash CACHE_SIZE)
open Recent (Before)

structure Rep (cache : Cache) (as : List Nat) (keys : List CString)
    (stored : CString → Option CString) : Prop where
  head_eq : cache.head = as.head?
  count_eq : cache.count = as.length
  capacity_eq : cache.capacity = CACHE_SIZE
  keys_eq : as.map (keyAt cache.heap) = keys.map some
  nodup : keys.Nodup
  data_eq : ∀ a ∈ as, ∀ k, keyAt cache.heap a = some k → dataAt cache.heap a = stored k
  next_behind : ∀ a ∈ as, ∀ b, nextAt cache.heap a = some b → Before as a b
  bucket : ∀ i a, cache.table i = some a → a ∈ as ∧ ∃ k, keyAt cache.heap a = some k ∧ hash k = i
  first : ∀ a, as.head? = some a → ∀ k, keyAt cache.heap a = some k → cache.table (hash k) = some a

structure Tidy (cache : Cache) (as : List Nat) : Prop where
  prev_next : ∀ a ∈ as, ∀ b, nextAt cache.heap a = some b → prevAt cache.heap b = some a
  prev_before : ∀ a ∈ as, ∀ b, prevAt cache.heap a = some b → Before as b a
  table_eq : ∀ a ∈ as, ∀ k, keyAt cache.heap a = some k → cache.table (hash k) = some a

structure Listed (cache : Cache) (as : List Nat) : Prop where
  chain : as.IsChain fun a b => prevAt cache.heap b = some a
  tail_eq : cache.tail = as.getLast?

theorem lookup_first {cache : Cache} {a : Nat} {key : CString}
    (htable : cache.table (hash key) = some a)
    (hkey : keyAt cache.heap a = some key) : lookup cache key = some (some a) := by
  rcases map_eq_some_iff.1 hkey with ⟨node, hnode, heq⟩
  simp [lookup, htable, findNode, hnode, heq]

namespace Rep

variable {cache : Cache} {as : List Nat} {keys : List CString} {stored : CString →
  Option CString} {a b : Nat}
  {key : CString} (h : Rep cache as keys stored)

include h

theorem exists_key (ha : a ∈ as) : ∃ k ∈ keys, keyAt cache.heap a = some k := by
  have hmem : keyAt cache.heap a ∈ as.map (keyAt cache.heap) := mem_map_of_mem ha
  rw [h.keys_eq, List.mem_map] at hmem
  rcases hmem with ⟨k, hk, heq⟩
  exact ⟨k, hk, heq.symm⟩

theorem key_mem (ha : a ∈ as) (hk : keyAt cache.heap a = some key) : key ∈ keys := by
  rcases h.exists_key ha with ⟨k, hmem, heq⟩
  rw [hk, some.injEq] at heq
  rwa [heq]

theorem alive (ha : a ∈ as) : Alive cache.heap a := by
  rcases h.exists_key ha with ⟨k, -, hk⟩
  exact alive_iff.2 ⟨k, hk⟩

theorem exists_node (hkey : key ∈ keys) : ∃ a ∈ as, keyAt cache.heap a = some key := by
  have hmem : some key ∈ keys.map some := mem_map_of_mem hkey
  rwa [← h.keys_eq, List.mem_map] at hmem

theorem nodup_map : (as.map (keyAt cache.heap)).Nodup := by
  rw [h.keys_eq]
  exact h.nodup.map (some_injective _)

theorem nodup_nodes : as.Nodup := h.nodup_map.of_map

theorem eq_of_key (ha : a ∈ as) (hb : b ∈ as) (heq : keyAt cache.heap a = keyAt cache.heap b) :
    a = b :=
  inj_on_of_nodup_map h.nodup_map ha hb heq

theorem end_iff {x : Option Nat} {k : Option CString} (hend : x.map (keyAt cache.heap) = k.map some)
    (hx : ∀ b, x = some b → b ∈ as) (ha : a ∈ as) (hka : keyAt cache.heap a = some key) :
    x = some a ↔ k = some key := by
  cases x with
  | none => cases k <;> simp_all
  | some b =>
    cases k with
    | none => cases hend
    | some k =>
      have hkb : keyAt cache.heap b = some k := by simpa using hend
      constructor
      · rintro ⟨⟩
        rw [← hkb, hka]
      · rintro ⟨⟩
        rw [h.eq_of_key ha (hx b rfl) (hka.trans hkb.symm)]

theorem head?_iff (ha : a ∈ as) (hka : keyAt cache.heap a = some key) :
    as.head? = some a ↔ keys.head? = some key :=
  h.end_iff (by rw [← head?_map, ← head?_map, h.keys_eq]) (fun _ => mem_of_mem_head?) ha hka

theorem getLast?_iff (ha : a ∈ as) (hka : keyAt cache.heap a = some key) :
    as.getLast? = some a ↔ keys.getLast? = some key :=
  h.end_iff (by rw [← getLast?_map, ← getLast?_map, h.keys_eq]) (fun _ => mem_of_getLast?) ha hka

theorem length_eq : as.length = keys.length := by
  simpa using congrArg length h.keys_eq

/-- The search for a key without a node, among the last nodes `t`: it goes on towards the end. -/
theorem findNode_missing (hkey : key ∉ keys) {l t : List Nat} (hsplit : as = l ++ t) {fuel : Nat}
    {p : Option Nat} (hfuel : t.length < fuel) (hp : ∀ a, p = some a → a ∈ t) :
    findNode cache.heap key fuel p = some none := by
  induction t generalizing l fuel p with
  | nil =>
    obtain ⟨fuel, rfl⟩ := Nat.exists_eq_succ_of_ne_zero (Nat.ne_zero_of_lt hfuel)
    cases p with
    | none => rfl
    | some a => cases hp a rfl
  | cons c t ih =>
    have hsplit' : as = l ++ [c] ++ t := by simpa using hsplit
    rw [length_cons] at hfuel
    by_cases hlater : ∀ a, p = some a → a ∈ t
    · exact ih hsplit' (by omega) hlater
    obtain ⟨fuel, rfl⟩ := Nat.exists_eq_succ_of_ne_zero (Nat.ne_zero_of_lt hfuel)
    obtain rfl : p = some c := by
      cases p with
      | none => simp at hlater
      | some a => simpa [show a ∉ t by simpa using hlater] using hp a rfl
    have hc : c ∈ as := by simp [hsplit]
    rcases (h.alive hc).exists_cell with ⟨node, hnode, hnext, -, hnodeKey⟩
    have hne : node.key.str ≠ key := by
      rintro rfl
      exact hkey (h.key_mem hc hnodeKey)
    simp only [findNode, hnode, hne, bind_eq_bind, bind_some]
    refine ih hsplit' (by omega) fun b hb => ?_
    have hnodup := h.nodup_nodes
    have hbefore := h.next_behind c hc b (hnext.trans hb)
    rw [hsplit] at hnodup hbefore
    exact hbefore.mem_behind hnodup

theorem lookup_missing (hkey : key ∉ keys) : lookup cache key = some none := by
  have hcells : ∀ b ∈ as, ∃ node, cache.heap.cell b = some node := fun b hb =>
    isSome_iff_exists.1 (h.alive hb)
  exact h.findNode_missing hkey (nil_append as).symm
    (Nat.lt_succ_of_le (Heap.length_le_brk h.nodup_nodes hcells))
    fun a ha => (h.bucket _ a ha).1

/-! ## Using a node -/

section Moved

variable {cache' : Cache} {first c : Nat} (ht : Tidy cache as) (hfirst : as.head? =
  some first) (ha : a ∈ as)
  (hmoved : Moved cache cache' first a)

include ht hfirst ha hmoved

/-- The links out of another node do not lead to the moved node any more. -/
theorem moved_next (hc : c ∈ as) (hca : c ≠ a) (hb : nextAt cache'.heap c = some b) :
    b ≠ a ∧ Before as c b ∧ prevAt cache'.heap b = some c := by
  have hnodup := h.nodup_nodes
  rw [hmoved.next, if_neg hca] at hb
  by_cases hpc : prevAt cache.heap a = some c
  · -- the node before `a` takes over the link of `a`
    rw [if_pos hpc] at hb
    have hab := h.next_behind a ha b hb
    have hba := (hab.ne hnodup).symm
    refine ⟨hba, (ht.prev_before a ha c hpc).trans hnodup hab, ?_⟩
    rw [hmoved.prev, if_neg hba, if_neg (hab.ne_head hnodup hfirst), if_pos hb, hpc]
  · -- a link to `a` would be matched by `a->prev`
    rw [if_neg hpc] at hb
    have hcb := h.next_behind c hc b hb
    have hprev := ht.prev_next c hc b hb
    have hba : b ≠ a := by
      rintro rfl
      exact hpc hprev
    have hnotnext : nextAt cache.heap a ≠ some b := by
      intro hab
      rw [ht.prev_next a ha b hab] at hprev
      exact hca (some.inj hprev).symm
    refine ⟨hba, hcb, ?_⟩
    rw [hmoved.prev, if_neg hba, if_neg (hcb.ne_head hnodup hfirst), if_neg hnotnext, hprev]

omit hfirst in
/-- The links back lead towards the front, also where they lead to the moved node by mistake. -/
theorem moved_prev_before (hc : c ∈ as) (hb : prevAt cache'.heap c = some b) :
    Before (a :: as.erase a) b c := by
  by_cases hca : c = a
  · rw [hmoved.prev, if_pos hca] at hb
    cases hb
  have hfront : Before (a :: as.erase a) a c := Recent.before_cons_self ((mem_erase_of_ne hca).2 hc)
  rw [hmoved.prev, if_neg hca] at hb
  by_cases hcfirst : c = first
  · rw [if_pos hcfirst] at hb
    cases hb
    exact hfront
  rw [if_neg hcfirst] at hb
  by_cases hac : nextAt cache.heap a = some c
  · rw [if_pos hac] at hb
    have hba := ht.prev_before a ha b hb
    exact ((hba.trans h.nodup_nodes (h.next_behind a ha c hac)).erase
      (hba.ne h.nodup_nodes) hca).cons
  · rw [if_neg hac] at hb
    by_cases hba : b = a
    · exact hba ▸ hfront
    · exact ((ht.prev_before c hc b hb).erase hba hca).cons

variable (hne : first ≠ a)

include hne

theorem moved_next_behind (hc : c ∈ as) (hb : nextAt cache'.heap c = some b) :
    Before (a :: as.erase a) c b := by
  by_cases hca : c = a
  · subst hca
    rw [hmoved.next, if_pos rfl] at hb
    cases hb
    exact Recent.before_cons_self ((mem_erase_of_ne hne).2 (mem_of_mem_head? hfirst))
  · rcases moved_next h ht hfirst ha hmoved hc hca hb with ⟨hba, hbefore, -⟩
    exact (hbefore.erase hca hba).cons

theorem move (hkey : keyAt cache.heap a = some key) :
    Rep cache' (a :: as.erase a) (key :: keys.erase key) stored ∧
      Tidy cache' (a :: as.erase a) := by
  have hmem : ∀ c, c ∈ a :: as.erase a ↔ c ∈ as := fun c => (perm_cons_erase ha).mem_iff.symm
  have htable : ∀ c ∈ a :: as.erase a, ∀ k, keyAt cache'.heap c = some k →
    cache'.table (hash k) = some c := by
    intro c hc k hk
    rw [hmoved.links.key] at hk
    rw [hmoved.links.table]
    exact ht.table_eq c ((hmem c).1 hc) k hk
  refine ⟨⟨hmoved.head, ?_, hmoved.links.capacity.trans h.capacity_eq, ?_, ?_, ?_, ?_, ?_, ?_⟩,
    ⟨?_, ?_, htable⟩⟩
  · rw [hmoved.links.count, h.count_eq, (perm_cons_erase ha).length_eq]
  · rw [map_congr_left fun c _ => hmoved.links.key c, map_cons,
      KeyedList.map_erase_of_nodup h.nodup_map ha, h.keys_eq, hkey, map_cons,
      map_erase (some_injective _)]
  · exact nodup_cons.2 ⟨h.nodup.not_mem_erase, h.nodup.erase key⟩
  · intro c hc k hk
    rw [hmoved.links.key] at hk
    rw [hmoved.links.data]
    exact h.data_eq c ((hmem c).1 hc) k hk
  · exact fun c hc b hb => moved_next_behind h ht hfirst ha hmoved hne ((hmem c).1 hc) hb
  · intro i c hc
    rw [hmoved.links.table] at hc
    rw [hmem, hmoved.links.key]
    exact h.bucket i c hc
  · exact fun c hc => htable c (mem_of_mem_head? hc)
  · intro c hc b hb
    rcases eq_or_ne c a with rfl | hca
    · rw [hmoved.next, if_pos rfl] at hb
      cases hb
      rw [hmoved.prev, if_neg hne, if_pos rfl]
    · exact (moved_next h ht hfirst ha hmoved ((hmem c).1 hc) hca hb).2.2
  · exact fun c hc b hb => moved_prev_before h ht ha hmoved ((hmem c).1 hc) hb

end Moved

theorem exists_move {first : Nat} (ht : Tidy cache as) (hfirst : as.head? = some first)
    (ha : a ∈ as) (hne : first ≠ a) : ∃ cache', moveToFront cache a = some cache' ∧
    Moved cache cache' first a := by
  refine moveToFront_spec (h.head_eq.trans hfirst) hne (h.alive (mem_of_mem_head? hfirst))
    (h.alive ha) (fun c hc => ?_) fun c hc => ?_
  · have hbefore := ht.prev_before a ha c hc
    exact ⟨h.alive hbefore.mem_left, hbefore.ne h.nodup_nodes⟩
  · have hbefore := h.next_behind a ha c hc
    exact ⟨h.alive hbefore.mem_right, (hbefore.ne h.nodup_nodes).symm⟩

end Rep

variable {cache cache' : Cache} {keys : List CString} {stored : CString → Option CString}
  {a b : Nat} {l : List Nat}

theorem Rep.ne_last (h : Rep cache (l ++ [a]) keys stored) (hb : b ∈ l) : b ≠ a := by
  rintro rfl
  exact (disjoint_of_nodup_append h.nodup_nodes) hb mem_cons_self

theorem Rep.next_last (h : Rep cache (l ++ [a]) keys stored) : nextAt cache.heap a = none := by
  cases hnext : nextAt cache.heap a with
  | none => rfl
  | some b => cases (h.next_behind a (by simp) b hnext).mem_behind h.nodup_nodes

theorem Listed.prev_last (hlist : Listed cache (l ++ [a])) :
    ∀ b ∈ l.getLast?, prevAt cache.heap a = some b := fun b hb =>
  (isChain_append.1 hlist.chain).2.2 b hb a rfl

theorem Listed.move {first : Nat} {rest : List Nat} (hlist : Listed cache (first :: rest ++ [a]))
    (h : Rep cache (first :: rest ++ [a]) keys stored) (hmoved : Moved cache cache' first a) :
    Listed cache' (a :: first :: rest) := by
  have hnodup := h.nodup_nodes
  have hne : first ≠ a := h.ne_last mem_cons_self
  have hnone := h.next_last
  have hchain := (isChain_append.1 hlist.chain).1
  refine ⟨isChain_cons_cons.2 ⟨?_, ?_⟩, ?_⟩
  · rw [hmoved.prev, if_neg hne, if_pos rfl]
  · -- the links of the nodes behind the old head are as they were
    have hsame : ∀ b ∈ rest, prevAt cache'.heap b = prevAt cache.heap b := by
      intro b hb
      have hba : b ≠ a := h.ne_last (mem_cons_of_mem _ hb)
      have hbfirst : b ≠ first := by
        rintro rfl
        exact (nodup_cons.1 hnodup).1 (mem_append_left _ hb)
      rw [hmoved.prev, if_neg hba, if_neg hbfirst, if_neg (by simp [hnone])]
    rw [isChain_cons] at hchain ⊢
    refine ⟨fun b hb => ?_, hchain.2.imp_of_mem_imp fun c b _ hb hcb => ?_⟩
    · rw [hsame b (mem_of_mem_head? hb)]
      exact hchain.1 b hb
    · rwa [hsame b hb]
  · obtain ⟨last, hlast⟩ : ∃ last, (first :: rest).getLast? = some last :=
      ⟨_, getLast?_eq_some_getLast (cons_ne_nil first rest)⟩
    rw [hmoved.tail, if_pos, hlist.prev_last last hlast, getLast?_cons_cons, hlast]
    · rfl
    · rw [hlist.tail_eq, getLast?_concat]

end SystemsLab.StringLru
