import SystemsLab.ChainedTable.Chains

/-!
# When the table is a map

An insertion of a key that is in the table has to find it at the end of its chain (`allowed`).  As
long as that is so, the table is a map; the first insertion that finds its key elsewhere leaves a
chain that leads to freed memory (`chained_table_is_map_iff`).
-/

namespace SystemsLab.ChainedTable

open CallSequence Chain ChainBuckets KeyedList List

def chainKeys (heap : Heap Node) : Nat → Option Nat → List CString
  | 0, _ => []
  | _ + 1, none => []
  | fuel + 1, some a =>
    match heap.cell a with
    | none => []
    | some node => node.key.str :: chainKeys heap fuel node.next

/-- An insertion finds its key at the end of the chain or not at all. -/
def allowed (t : Table) : TableCall → Bool
  | .insert key _ _ => key ∉ (chainKeys t.heap (t.heap.brk + 1) (t.hashTable (hash key))).dropLast
  | .delete _ => true

def TableCall.toMap : TableCall → MapCall CString Int
  | .insert key value _ => .insert key value
  | .delete key => .delete key

/-- The chains have allocated nodes only and no key twice, and searches find what is in the map. -/
structure Right (t : Table) (m : CString → Option Int) : Prop where
  chains : ∀ i, ∃ l : List Nat, t.hashTable i = l.head? ∧ Linked (nextOf t.heap) l none ∧
    (l.map fun a => (t.heap.cell a).map fun n => n.key.str).Nodup
  search : ∀ key, search t key = some ((m key).getD (-1))

variable {t : Table} {items : Fin TABLE_SIZE → List Item} {m : CString → Option Int} {key : CString}
  {value : Int} {hint : Nat}

theorem chainKeys_eq {heap : Heap Node} {first : Option Nat} {i : Fin TABLE_SIZE}
    {before l : List Item}
    (h : Bucket heap first i (before ++ l)) {fuel : Nat} (hfuel : l.length < fuel) :
    chainKeys heap fuel (l.map Item.addr).head? = l.map Item.key := by
  induction l generalizing before fuel with
  | nil =>
    rcases fuel with _ | fuel
    · omega
    rfl
  | cons x l ih =>
    rcases fuel with _ | fuel
    · omega
    rcases node_eq h with ⟨node, hcell, hkey, -, hnext⟩
    rw [← singleton_append, ← append_assoc] at h
    simp only [map_cons, head?_cons, chainKeys, hcell, hkey, hnext]
    rw [ih h (Nat.lt_of_succ_lt_succ hfuel)]

theorem allowed_insert_iff (h : Rep t items) :
    allowed t (.insert key value hint) ↔ key ∉ ((items (hash key)).map Item.key).dropLast := by
  have hbucket : Bucket t.heap (t.hashTable (hash key)) (hash key) ([] ++ items (hash key)) := h _
  have hkeys := chainKeys_eq hbucket (Nat.lt_succ_of_le ((h _).length_le))
  rw [← (h _).start] at hkeys
  rw [allowed, hkeys, decide_eq_true_eq]

theorem init_rep : Rep init fun _ => [] := fun i => Bucket.empty _ _ i

theorem Rep.right (h : Rep t items) (hm : Represents hash items m) : Right t m := by
  refine ⟨fun i => ⟨(items i).map Item.addr, (h i).start, (h i).linked, ?_⟩, fun key => ?_⟩
  · have hkeys : ((items i).map Item.addr).map (fun a => (t.heap.cell a).map fun n => n.key.str) =
        ((items i).map Item.key).map some := by
      rw [map_map, map_map]
      refine map_congr_left fun x hx => ?_
      have hdata := (h i).data x hx
      rcases Option.map_eq_some_iff.1 hdata with ⟨node, hcell, hnode⟩
      simp [hcell, (Prod.mk.inj hnode).1]
    rw [hkeys]
    exact (h i).keys.map (Option.some_injective _)
  · rw [search_eq h, hm key]

theorem insert_rep (h : Rep t items) (hm : Represents hash items m)
    (hlen : key.bytes.length < KEY_SIZE)
    (hok : allowed t (.insert key value hint)) : ∃ t' items', insert t key value hint = some t' ∧
    Rep t' items' ∧ Represents hash items' (Function.update m key (some value)) := by
  rw [allowed_insert_iff h] at hok
  rcases (items (hash key)).eq_nil_or_concat with hnil | ⟨l, x, hconcat⟩
  · rcases insert_first h hlen value hint hnil with ⟨t', ht', h'⟩
    exact ⟨t', _, ht', h', hm.push (by simp [hnil]) _ value⟩
  · rw [concat_eq_append] at hconcat
    rw [hconcat, map_append, map_singleton, dropLast_concat] at hok
    by_cases hxkey : x.key = key
    · rcases insert_match h hconcat hxkey hlen value hint with ⟨t', ht', h'⟩
      exact ⟨t', _, ht', h', hm.setLast hconcat hxkey hok value⟩
    · have hnew : key ∉ (items (hash key)).map Item.key := by
        rw [hconcat, map_append, mem_append, not_or, map_singleton, mem_singleton]
        exact ⟨hok, Ne.symm hxkey⟩
      rcases insert_push h hconcat hnew hlen value hint with ⟨t', ht', h'⟩
      exact ⟨t', _, ht', h', hm.push hnew _ value⟩

theorem delete_rep (h : Rep t items) (hm : Represents hash items m) (key : CString) :
    ∃ t' items', delete t key = some t' ∧ Rep t' items' ∧
      Represents hash items' (Function.update m key none) := by
  cases hfind : lookup Item.key key (items (hash key)) with
  | none =>
    refine ⟨t, items, delete_miss h (lookup_eq_none_iff.1 hfind), h, ?_⟩
    have hnone : m key = none := by rw [hm key, hfind, Option.map_none]
    rwa [← hnone, Function.update_eq_self]
  | some x =>
    rcases delete_hit h hfind with ⟨t', ht', h'⟩
    exact ⟨t', _, ht', h', hm.erase key (h _).keys⟩

/-- An insertion that is not allowed leaves a chain that no list of allocated nodes is. -/
theorem not_right_of_not_allowed (h : Rep t items) (hlen : key.bytes.length < KEY_SIZE)
    (hno : allowed t (.insert key value hint) = false) {t' : Table}
    (hinsert : insert t key value hint = some t') :
    ¬Right t' m := by
  have hmem : key ∈ ((items (hash key)).map Item.key).dropLast := by
    by_contra hnot
    rw [(allowed_insert_iff h).2 hnot] at hno
    cases hno
  rcases (items (hash key)).eq_nil_or_concat with hnil | ⟨front, y, hconcat⟩
  · simp [hnil] at hmem
  · rw [concat_eq_append] at hconcat
    rw [hconcat, map_append, map_singleton, dropLast_concat] at hmem
    rcases mem_map.1 hmem with ⟨x, hx, hxkey⟩
    rcases append_of_mem hx with ⟨before, l, rfl⟩
    rw [append_assoc] at hconcat
    rcases insert_dangles h hconcat hxkey hlen value hint with ⟨t1, ht1, htable, hlinked, hgone⟩
    rw [hinsert] at ht1
    cases ht1
    intro hright
    rcases hright.chains (hash key) with ⟨l', hstart, hlinked', -⟩
    refine hlinked.not_dangling hgone ?_ hlinked'
    rw [← hstart, htable, (h _).start, hconcat]
    simp

/-- The table is a map as long as every key that is inserted again stands at the end of its chain,
and no longer: an insertion of another key makes freed memory reachable. -/
theorem chained_table_is_map_iff (calls : List TableCall)
    (hkeys : ∀ c ∈ calls, c.key.bytes.length ≤ 49) :
    guarded call allowed init calls ↔ ∀ made, made <+: calls →
        ∃ t, run made = some t ∧ Right t (mapAfter (made.map TableCall.toMap)) := by
  have hlen : ∀ c ∈ calls, c.key.bytes.length < KEY_SIZE := fun c hc =>
    Nat.lt_succ_of_le (hkeys c hc)
  refine guarded_iff_good
    (R := fun t made => ∃ items, Rep t items ∧
      Represents hash items (mapAfter (made.map TableCall.toMap)))
    ⟨_, init_rep, fun _ => rfl⟩ ?_ ?_ ?_
  · rintro t made c hc ⟨items, h, hm⟩ hok
    rw [map_append, map_singleton, mapAfter_concat]
    cases c with
    | insert key value hint =>
      rcases insert_rep h hm (hlen _ hc) hok with ⟨t', items', ht', h', hm'⟩
      exact ⟨t', ht', items', h', hm'⟩
    | delete key =>
      rcases delete_rep h hm key with ⟨t', items', ht', h', hm'⟩
      exact ⟨t', ht', items', h', hm'⟩
  · rintro t made hrun ⟨items, h, hm⟩
    exact ⟨t, hrun, h.right hm⟩
  · rintro t made c hc hrun ⟨items, h, -⟩ hno ⟨t', hrun', hright⟩
    rw [run, runCalls_append, hrun, Option.bind_some] at hrun'
    cases c with
    | insert key value hint =>
      rcases Option.bind_eq_some_iff.1 hrun' with ⟨t1, ht1, hend⟩
      cases hend
      exact not_right_of_not_allowed h (hlen _ hc) hno ht1 hright
    | delete key => cases hno

def keyA : CString := .ofBytes [97]

def keyK : CString := .ofBytes [107]

def keyU : CString := .ofBytes [117]

/-- The second node of a chain is inserted again, and the first one is deleted. -/
def fineCalls : List TableCall :=
  [.insert keyA 1 0, .insert keyK 2 0, .insert keyK 3 0, .delete keyA, .insert keyK 4 0]

theorem chained_table_is_map_demo :
    ∃ t, run fineCalls = some t ∧ Right t (mapAfter (fineCalls.map TableCall.toMap)) :=
  (chained_table_is_map_iff fineCalls (by decide +kernel)).1 (by decide +kernel) _ (prefix_refl _)

/-- The first node of a chain is inserted again: the chain leads to the freed node 2, where a search
for another key fails. -/
theorem freed_node_is_reachable :
    (run [.insert keyA 1 0, .insert keyK 2 0, .insert keyA 3 0]).map
        (fun t => (t.hashTable (hash keyA), nextOf t.heap 0, nextOf t.heap 1, nextOf t.heap 2)) =
      some (some 0, some (some 1), some (some 2), none) ∧
    (run [.insert keyA 1 0, .insert keyK 2 0, .insert keyA 3 0]).map (fun t => search t keyU) =
    some none := by
  decide +kernel

end SystemsLab.ChainedTable
