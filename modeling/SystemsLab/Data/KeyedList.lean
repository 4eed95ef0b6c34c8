import Mathlib.Data.List.Nodup

/-!
# A list that is searched for a key

The loop

```
for (i = 0; i < n; i++)
  if (a[i].key == key) break;
```

finds the first element with a key.  `lookup` is what it finds, and `change` is the list after an
assignment to that element.  `put` sets the value of a key in a list of pairs, in front if the key
is new.

`RecencyList` keeps the elements in the order of their last use, the most recent one first: a use
moves an element to the front (`touch`), and a new element pushes out what does not fit (`push`).
-/

namespace SystemsLab.KeyedList

open List

variable {α κ : Type*}

theorem nodup_map_middle {key : α → κ} {x : α} {l1 l2 : List α} : ((l1 ++ x :: l2).map key).Nodup ↔
    key x ∉ (l1 ++ l2).map key ∧ ((l1 ++ l2).map key).Nodup := by
  rw [map_append, map_cons, nodup_middle, nodup_cons, ← map_append]

theorem map_erase_of_nodup [BEq α] [LawfulBEq α] [BEq κ] [LawfulBEq κ] {key : α → κ} {x : α}
    {l : List α} (hnodup : (l.map key).Nodup) (hx : x ∈ l) :
    (l.erase x).map key = (l.map key).erase (key x) := by
  rcases append_of_mem hx with ⟨l1, l2, rfl⟩
  have hkey := (nodup_map_middle.1 hnodup).1
  have hx1 : x ∉ l1 := fun hmem => hkey (mem_map_of_mem (mem_append_left _ hmem))
  have hkey1 : key x ∉ l1.map key := by
    rw [map_append] at hkey
    exact fun hmem => hkey (mem_append_left _ hmem)
  rw [erase_append_right _ hx1, erase_cons_head, map_append, map_append,
    map_cons, erase_append_right _ hkey1, erase_cons_head]

variable [DecidableEq κ]

def lookup (key : α → κ) (k : κ) (l : List α) : Option α :=
  l.find? fun x => key x = k

def change (key : α → κ) (k : κ) (f : α → α) : List α → List α
  | [] => []
  | x :: l => if key x = k then f x :: l else x :: change key k f l

variable {key : α → κ} {k k' : κ} {f : α → α} {l l' : List α} {x : α}

theorem lookup_cons : lookup key k (x :: l) = if key x = k then some x else lookup key k l := by
  rw [lookup]
  by_cases h : key x = k
  · simp [h]
  · simp [h, lookup]

theorem lookup_eq_none_iff : lookup key k l = none ↔ k ∉ l.map key := by
  simp [lookup]

theorem mem_of_lookup (h : lookup key k l = some x) : x ∈ l ∧ key x = k := by
  have hfound := find?_some h
  exact ⟨mem_of_find?_eq_some h, of_decide_eq_true hfound⟩

theorem exists_lookup (h : k ∈ l.map key) : ∃ x, lookup key k l = some x := by
  cases hfind : lookup key k l with
  | none => exact absurd h (lookup_eq_none_iff.1 hfind)
  | some x => exact ⟨x, rfl⟩

theorem lookup_of_mem (hnodup : (l.map key).Nodup) (hx : x ∈ l) (hk : key x = k) :
    lookup key k l = some x := by
  rcases exists_lookup (mem_map.2 ⟨x, hx, hk⟩) with ⟨y, hy⟩
  rcases mem_of_lookup hy with ⟨hmem, hyk⟩
  rw [hy, inj_on_of_nodup_map hnodup hmem hx (hyk.trans hk.symm)]

theorem exists_split (h : lookup key k l = some x) :
    ∃ before after, l = before ++ x :: after ∧ (∀ f, change key k f l = before ++ f x :: after) ∧
      l.eraseP (fun x => key x = k) = before ++ after := by
  induction l with
  | nil => cases h
  | cons y l ih =>
    by_cases hy : key y = k
    · obtain rfl : y = x := by simpa [lookup_cons, hy] using h
      refine ⟨[], l, rfl, fun f => ?_, ?_⟩
      · rw [change, if_pos hy]
        rfl
      · exact eraseP_cons_of_pos (decide_eq_true hy)
    · rw [lookup_cons, if_neg hy] at h
      rcases ih h with ⟨before, after, hsplit, hchange, herase⟩
      refine ⟨y :: before, after, by rw [hsplit]; rfl, fun f => ?_, ?_⟩
      · rw [change, if_neg hy, hchange]
        rfl
      · rw [eraseP_cons_of_neg (by simpa using hy), herase]
        rfl

/-! ## Changing an element -/

theorem change_of_notMem (f : α → α) (h : k ∉ l.map key) : change key k f l = l := by
  induction l with
  | nil => rfl
  | cons y l ih =>
    rw [map_cons, mem_cons, not_or] at h
    rw [change, if_neg (Ne.symm h.1), ih h.2]

theorem mem_change (h : x ∈ change key k f l) : x ∈ l ∨ ∃ y ∈ l, x = f y := by
  induction l with
  | nil => cases h
  | cons y l ih =>
    rw [change] at h
    split_ifs at h with hy
    · rcases mem_cons.1 h with rfl | h
      · exact .inr ⟨y, mem_cons_self, rfl⟩
      · exact .inl (mem_cons_of_mem _ h)
    · rcases mem_cons.1 h with rfl | h
      · exact .inl mem_cons_self
      · rcases ih h with h | ⟨z, hz, rfl⟩
        · exact .inl (mem_cons_of_mem _ h)
        · exact .inr ⟨z, mem_cons_of_mem _ hz, rfl⟩

@[simp] theorem length_change : (change key k f l).length = l.length := by
  induction l with
  | nil => rfl
  | cons y l ih =>
    rw [change]
    split
    · rfl
    · rw [length_cons, length_cons, ih]

theorem map_change (hf : ∀ x, key (f x) = key x) : (change key k f l).map key = l.map key := by
  induction l with
  | nil => rfl
  | cons y l ih =>
    rw [change]
    split
    · rw [map_cons, map_cons, hf]
    · rw [map_cons, map_cons, ih]

theorem change_append (f : α → α) (h : k ∈ l.map key) :
    change key k f (l ++ l') = change key k f l ++ l' := by
  induction l with
  | nil => cases h
  | cons y l ih =>
    by_cases hy : key y = k
    · rw [cons_append, change, change, if_pos hy, if_pos hy, cons_append]
    · rw [map_cons, mem_cons] at h
      rcases h with h | h
      · exact absurd h.symm hy
      · rw [cons_append, change, change, if_neg hy, if_neg hy, ih h, cons_append]

theorem change_append_of_notMem (f : α → α) (h : k ∉ l.map key) :
    change key k f (l ++ l') = l ++ change key k f l' := by
  induction l with
  | nil => rfl
  | cons y l ih =>
    rw [map_cons, mem_cons, not_or] at h
    rw [cons_append, change, if_neg (Ne.symm h.1), ih h.2, cons_append]

theorem lookup_change_self (hf : ∀ x, key (f x) = key x) :
    lookup key k (change key k f l) = (lookup key k l).map f := by
  induction l with
  | nil => rfl
  | cons y l ih =>
    by_cases hy : key y = k
    · rw [change, if_pos hy, lookup_cons, if_pos ((hf y).trans hy), lookup_cons, if_pos hy,
        Option.map_some]
    · rw [change, if_neg hy, lookup_cons, if_neg hy, lookup_cons, if_neg hy, ih]

theorem lookup_change_of_ne (hf : ∀ x, key (f x) = key x) (hk : k' ≠ k) :
    lookup key k' (change key k f l) = lookup key k' l := by
  induction l with
  | nil => rfl
  | cons y l ih =>
    by_cases hy : key y = k
    · have hne : ¬key y = k' := fun heq => hk (heq.symm.trans hy)
      rw [change, if_pos hy, lookup_cons, lookup_cons, hf, if_neg hne, if_neg hne]
    · rw [change, if_neg hy, lookup_cons, lookup_cons, ih]

theorem lookup_push :
    lookup key k (l ++ [x]) = (lookup key k l).or (if key x = k then some x else none) := by
  rw [lookup, find?_append]
  congr 1
  exact lookup_cons

theorem lookup_eraseP_of_ne (hk : k' ≠ k) : lookup key k' (l.eraseP fun x => key x = k) =
    lookup key k' l := by
  induction l with
  | nil => rfl
  | cons y l ih =>
    by_cases hy : key y = k
    · have hne : ¬key y = k' := fun heq => hk (heq.symm.trans hy)
      rw [eraseP_cons_of_pos (by simpa using hy), lookup_cons, if_neg hne]
    · rw [eraseP_cons_of_neg (by simpa using hy), lookup_cons, lookup_cons, ih]

theorem lookup_eraseP_self (hnodup : (l.map key).Nodup) :
    lookup key k (l.eraseP fun x => key x = k) = none := by
  rw [lookup_eq_none_iff]
  cases hfind : lookup key k l with
  | none =>
    have hnot := lookup_eq_none_iff.1 hfind
    exact fun hmem => hnot (map_subset key eraseP_subset hmem)
  | some x =>
    rcases exists_split hfind with ⟨before, after, hsplit, -, herase⟩
    rw [hsplit] at hnodup
    rw [herase, ← (mem_of_lookup hfind).2]
    exact (nodup_map_middle.1 hnodup).1

/-! ## Lists of pairs -/

variable {ν : Type*} {l l1 l2 : List (κ × ν)} {k k' : κ} {v w : ν}

def put (k : κ) (v : ν) (l : List (κ × ν)) : List (κ × ν) :=
  if k ∈ l.map Prod.fst then change Prod.fst k (fun _ => (k, v)) l else (k, v) :: l

theorem put_new (h : k ∉ l.map Prod.fst) : put k v l = (k, v) :: l := if_neg h

theorem put_middle (h : k ∉ l1.map Prod.fst) :
    put k v (l1 ++ (k, w) :: l2) = l1 ++ (k, v) :: l2 := by
  have hmem : k ∈ (l1 ++ (k, w) :: l2).map Prod.fst := by simp
  rw [put, if_pos hmem, change_append_of_notMem _ h, change, if_pos rfl]

theorem exists_middle (h : k ∈ l.map Prod.fst) :
    ∃ l1 w l2, l = l1 ++ (k, w) :: l2 ∧ k ∉ l1.map Prod.fst := by
  induction l with
  | nil => cases h
  | cons x l ih =>
    by_cases hx : x.1 = k
    · exact ⟨[], x.2, l, by rw [← hx]; rfl, not_mem_nil⟩
    · rcases ih ((mem_cons.1 h).resolve_left (Ne.symm hx)) with ⟨l1, w, l2, rfl, hk⟩
      refine ⟨x :: l1, w, l2, rfl, ?_⟩
      rw [map_cons, mem_cons, not_or]
      exact ⟨Ne.symm hx, hk⟩

theorem lookup_append_of_notMem (h : k ∉ l1.map Prod.fst) :
    lookup Prod.fst k (l1 ++ l2) = lookup Prod.fst k l2 := by
  rw [lookup, find?_append, ← lookup, lookup_eq_none_iff.2 h]
  rfl

theorem lookup_put_self : lookup Prod.fst k (put k v l) = some (k, v) := by
  by_cases h : k ∈ l.map Prod.fst
  · rcases exists_middle h with ⟨l1, w, l2, rfl, hk⟩
    rw [put_middle hk, lookup_append_of_notMem hk, lookup_cons, if_pos rfl]
  · rw [put_new h, lookup_cons, if_pos rfl]

theorem lookup_put_of_ne (hk : k' ≠ k) : lookup Prod.fst k' (put k v l) = lookup Prod.fst k' l := by
  by_cases h : k ∈ l.map Prod.fst
  · rcases exists_middle h with ⟨l1, w, l2, rfl, hk1⟩
    rw [put_middle hk1, lookup, lookup, find?_append, find?_append]
    congr 1
    rw [← lookup, ← lookup, lookup_cons, lookup_cons, if_neg (Ne.symm hk), if_neg (Ne.symm hk)]
  · rw [put_new h, lookup_cons, if_neg (Ne.symm hk)]

end SystemsLab.KeyedList

namespace SystemsLab.RecencyList

open KeyedList

variable {α β κ : Type*} [DecidableEq κ]

def touch (key : α → κ) (k : κ) (f : α → α) (l : List α) : List α :=
  match lookup key k l with
  | some x => f x :: l.eraseP fun x => key x = k
  | none => l

def push (capacity : Nat) (x : α) (l : List α) : List α := (x :: l).take capacity

variable {key : α → κ} {key' : β → κ} {k : κ} {f : α → α} {g : β → β} {l l1 l2 : List α} {x : α}
  {view : α → β}

theorem touch_of_split (h : lookup key k (l1 ++ x :: l2) = some x)
    (herase : (l1 ++ x :: l2).eraseP (fun x => key x = k) = l1 ++ l2) :
    touch key k f (l1 ++ x :: l2) = f x :: (l1 ++ l2) := by
  rw [touch, h]
  exact congrArg (f x :: ·) herase

theorem touch_of_none (h : lookup key k l = none) : touch key k f l = l := by
  rw [touch, h]

@[simp] theorem length_touch : (touch key k f l).length = l.length := by
  cases hlookup : lookup key k l with
  | none => rw [touch_of_none hlookup]
  | some x =>
    rcases exists_split hlookup with ⟨l1, l2, rfl, -, herase⟩
    rw [touch_of_split hlookup herase, List.perm_middle.length_eq]
    rfl

theorem map_lookup (hkey : ∀ x, key' (view x) = key x) :
    lookup key' k (l.map view) = (lookup key k l).map view := by
  induction l with
  | nil => rfl
  | cons x l ih =>
    rw [List.map_cons, lookup_cons, lookup_cons, hkey, ih]
    split
    · rfl
    · rfl

theorem map_touch (hkey : ∀ x, key' (view x) = key x) (hview : ∀ x, view (f x) = g (view x)) :
    (touch key k f l).map view = touch key' k g (l.map view) := by
  rw [touch, touch, map_lookup hkey]
  cases lookup key k l with
  | none => rfl
  | some x =>
    have herase : (l.map view).eraseP (fun y => key' y = k) =
      (l.eraseP fun x => key x = k).map view := by
      rw [List.eraseP_map]
      congr 2
      funext x
      simp [hkey]
    simp [hview, herase]

theorem map_push (capacity : Nat) : (push capacity x l).map view = push capacity (view x)
    (l.map view) := by
  rw [push, push, List.map_take, List.map_cons]

end SystemsLab.RecencyList
