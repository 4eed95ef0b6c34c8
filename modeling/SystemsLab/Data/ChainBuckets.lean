import SystemsLab.Data.Chain
import SystemsLab.Data.Heap
import SystemsLab.Data.KeyedList

/-!
# Hash buckets that are linked lists

The elements of a bucket are cells of a memory, of which only the link and the data are looked at.
Every element stands in the bucket of its key, so no two buckets share a cell, and an operation on
one of them leaves the others alone.

- `Bucket mem home first i l` — the chain from `first` is the list of elements `l`, all with keys of
  bucket `i` and no key twice; `Bucket.setVal`, `Bucket.push` and `Bucket.remove` are its changes;
- `Represents home items m` — the map that the buckets stand for.
-/

namespace SystemsLab.ChainBuckets

open Chain KeyedList List Function Option Heap

variable {κ δ ι : Type*}

@[ext] structure Item (κ δ : Type*) where
  addr : Nat
  key : κ
  val : δ

/-- What is read at an address. -/
structure Memory (κ δ : Type*) where
  next : Nat → Option (Option Nat)
  data : Nat → Option (κ × δ)

/-- The cells of a heap. -/
def Memory.ofHeap {ν : Type*} (heap : Heap ν) (next : ν → Option Nat) (data : ν → κ × δ) :
    Memory κ δ :=
  ⟨fun a => (heap.cell a).map next, fun a => (heap.cell a).map data⟩

structure Bucket (mem : Memory κ δ) (home : κ → ι) (first : Option Nat) (i : ι)
    (l : List (Item κ δ)) :
    Prop where
  start : first = (l.map Item.addr).head?
  linked : Linked mem.next (l.map Item.addr) none
  data : ∀ x ∈ l, mem.data x.addr = some (x.key, x.val)
  home : ∀ x ∈ l, home x.key = i
  keys : (l.map Item.key).Nodup

/-! ## One bucket -/

namespace Bucket

variable {mem mem' : Memory κ δ} {home : κ → ι} {first first' : Option Nat} {i j : ι}
  {x y : Item κ δ} {l l' before after : List (Item κ δ)}

theorem empty (mem : Memory κ δ) (home : κ → ι) (i : ι) : Bucket mem home none i [] :=
  ⟨rfl, trivial, nofun, nofun, nodup_nil⟩

theorem eq_of_addr_eq (h : Bucket mem home first i l) (h' : Bucket mem home first' j l')
    (hx : x ∈ l) (hy : y ∈ l') (haddr : x.addr = y.addr) : x = y := by
  have hdata := h.data x hx
  rw [haddr, h'.data y hy, some.injEq, Prod.mk.injEq] at hdata
  exact Item.ext haddr hdata.1.symm hdata.2.symm

theorem addr_ne (h : Bucket mem home first i l) (h' : Bucket mem home first' j l') (hij : i ≠ j)
    (hx : x ∈ l) (hy : y ∈ l') : x.addr ≠ y.addr := by
  intro haddr
  obtain rfl := h.eq_of_addr_eq h' hx hy haddr
  exact hij ((h.home x hx).symm.trans (h'.home x hy))

theorem nodup (h : Bucket mem home first i l) : (l.map Item.addr).Nodup :=
  h.keys.of_map.map_on fun _ hx _ hy haddr => h.eq_of_addr_eq h hx hy haddr

theorem rest_ne (h : Bucket mem home first i (before ++ x :: after)) (hy : y ∈ before ++ after) :
    y.addr ≠ x.addr := by
  intro heq
  exact (nodup_map_middle.1 h.nodup).1 (mem_map.2 ⟨y, hy, heq⟩)

theorem next_eq (h : Bucket mem home first i (before ++ x :: after)) :
    mem.next x.addr = some (after.map Item.addr).head? := by
  have hlinked := h.linked
  rw [map_append, map_cons] at hlinked
  have hnext := (linked_append.1 hlinked).2.1
  rwa [or_none] at hnext

theorem frame (h : Bucket mem home first i l) (hnext : ∀ x ∈ l, mem'.next x.addr = mem.next x.addr)
    (hdata : ∀ x ∈ l, mem'.data x.addr = mem.data x.addr) : Bucket mem' home first i l where
  start := h.start
  linked := by
    refine h.linked.congr fun a ha => ?_
    rcases mem_map.1 ha with ⟨x, hx, rfl⟩
    exact hnext x hx
  data x hx := (hdata x hx).trans (h.data x hx)
  home := h.home
  keys := h.keys

theorem setVal (h : Bucket mem home first i (before ++ x :: after)) {v : δ}
    (hnext : ∀ y ∈ before ++ x :: after, mem'.next y.addr = mem.next y.addr)
    (hself : mem'.data x.addr = some (x.key, v))
    (hdata : ∀ y ∈ before ++ after, mem'.data y.addr = mem.data y.addr) :
    Bucket mem' home first i (before ++ { x with val := v } :: after) := by
  have haddr : (before ++ { x with val := v } :: after).map Item.addr =
    (before ++ x :: after).map Item.addr := by
    rw [map_append, map_cons, map_append, map_cons]
  have hkey : (before ++ { x with val := v } :: after).map Item.key =
    (before ++ x :: after).map Item.key := by
    rw [map_append, map_cons, map_append, map_cons]
  refine ⟨haddr ▸ h.start, ?_, fun y hy => ?_, fun y hy => ?_, hkey ▸ h.keys⟩
  · rw [haddr]
    refine h.linked.congr fun a ha => ?_
    rcases mem_map.1 ha with ⟨y, hy, rfl⟩
    exact hnext y hy
  · rcases mem_append.1 hy with hold | hy
    · rw [hdata y (mem_append_left _ hold)]
      exact h.data y (mem_append_left _ hold)
    · rcases mem_cons.1 hy with rfl | hold
      · exact hself
      · rw [hdata y (mem_append_right _ hold)]
        exact h.data y (mem_append_right _ (mem_cons_of_mem _ hold))
  · rcases mem_append.1 hy with hold | hy
    · exact h.home y (mem_append_left _ hold)
    · rcases mem_cons.1 hy with rfl | hold
      · exact h.home x (mem_append_right _ mem_cons_self)
      · exact h.home y (mem_append_right _ (mem_cons_of_mem _ hold))

theorem cons (h : Bucket mem home first i l) (hhome : home x.key = i)
    (hkey : x.key ∉ l.map Item.key)
    (hnext : mem.next x.addr = some first) (hdata : mem.data x.addr = some (x.key, x.val)) :
    Bucket mem home (some x.addr) i (x :: l) where
  start := rfl
  linked := by
    refine ⟨?_, h.linked⟩
    rw [hnext, h.start, or_none]
  data y hy := by
    rcases mem_cons.1 hy with rfl | hold
    · exact hdata
    · exact h.data y hold
  home y hy := by
    rcases mem_cons.1 hy with rfl | hold
    · exact hhome
    · exact h.home y hold
  keys := nodup_cons.2 ⟨hkey, h.keys⟩

theorem push (h : Bucket mem home first i l) (hhome : home x.key = i)
    (hkey : x.key ∉ l.map Item.key)
    (hself : mem'.next x.addr = some none ∧ mem'.data x.addr = some (x.key, x.val))
    (hlast : ∀ c, (l.map Item.addr).getLast? = some c → mem'.next c = some (some x.addr))
    (hother : ∀ a ∈ l.map Item.addr, (l.map Item.addr).getLast? ≠ some a → mem'.next a = mem.next a)
    (hdata : ∀ y ∈ l, mem'.data y.addr = mem.data y.addr) :
    Bucket mem' home (first.or (some x.addr)) i (l ++ [x]) := by
  refine ⟨?_, ?_, fun y hy => ?_, fun y hy => ?_, ?_⟩
  · rw [h.start, map_append, head?_append, map_singleton, head?_cons]
  · rw [map_append]
    exact linked_append.2 ⟨h.linked.relink h.nodup hlast hother, hself.1, trivial⟩
  · rcases mem_append.1 hy with hold | hy
    · rw [hdata y hold]
      exact h.data y hold
    · rw [mem_singleton.1 hy]
      exact hself.2
  · rcases mem_append.1 hy with hold | hy
    · exact h.home y hold
    · rwa [mem_singleton.1 hy]
  · rw [nodup_map_middle, append_nil]
    exact ⟨hkey, h.keys⟩

theorem remove (h : Bucket mem home first i (before ++ x :: after))
    (hdata : ∀ y ∈ before ++ after, mem'.data y.addr = mem.data y.addr)
    (hbefore : ∀ c, (before.map Item.addr).getLast? = some c → mem'.next c = mem.next x.addr)
    (hother : ∀ a, (before.map Item.addr).getLast? ≠ some a → a ≠ x.addr →
      mem'.next a = mem.next a) :
    Bucket mem' home ((before ++ after).map Item.addr).head? i (before ++ after) := by
  have hsub : before ++ after ⊆ before ++ x :: after :=
    ((sublist_cons_self x after).append_left before).subset
  refine ⟨rfl, ?_, fun y hy => ?_, fun y hy => h.home y (hsub hy), (nodup_map_middle.1 h.keys).2⟩
  · have hlinked := h.linked
    have hnodup := h.nodup
    rw [map_append, map_cons] at hlinked hnodup
    rw [map_append]
    exact hlinked.remove hnodup hbefore hother
  · rw [hdata y hy]
    exact h.data y (hsub hy)

end Bucket

/-! ## A bucket in a heap -/

variable {ν : Type*} {heap heap' : Heap ν} {next : ν → Option Nat} {data : ν → κ × δ} {home : κ → ι}
  {first : Option Nat} {i : ι} {x : Item κ δ} {l before after : List (Item κ δ)} {a : Nat} {k : κ}

theorem Memory.ofHeap_congr (h : heap'.cell a = heap.cell a) :
    (Memory.ofHeap heap' next data).next a = (Memory.ofHeap heap next data).next a ∧
      (Memory.ofHeap heap' next data).data a = (Memory.ofHeap heap next data).data a := by
  simp [Memory.ofHeap, h]

namespace Bucket

theorem congr (h : Bucket (.ofHeap heap next data) home first i l)
    (hcells : ∀ x ∈ l, heap'.cell x.addr = heap.cell x.addr) :
    Bucket (.ofHeap heap' next data) home first i l :=
  h.frame (fun x hx => (Memory.ofHeap_congr (hcells x hx)).1) fun x hx =>
    (Memory.ofHeap_congr (hcells x hx)).2

theorem cell_eq (h : Bucket (.ofHeap heap next data) home first i (before ++ x :: after)) :
    ∃ v, heap.cell x.addr = some v ∧ data v = (x.key, x.val) ∧
      next v = (after.map Item.addr).head? := by
  rcases map_eq_some_iff.1 h.next_eq with ⟨v, hcell, hnext⟩
  have hdata : (heap.cell x.addr).map data = some (x.key, x.val) :=
    h.data x (mem_append_right _ mem_cons_self)
  rw [hcell, map_some, some.injEq] at hdata
  exact ⟨v, hcell, hdata, hnext⟩

variable (h : Bucket (.ofHeap heap next data) home first i l)

include h

theorem exists_cell (hx : x ∈ l) : ∃ v, heap.cell x.addr = some v := by
  rcases map_eq_some_iff.1 (h.data x hx) with ⟨v, hcell, -⟩
  exact ⟨v, hcell⟩

theorem length_le : l.length ≤ heap.brk := by
  rw [← length_map Item.addr]
  apply length_le_brk h.nodup
  intro a ha
  rcases mem_map.1 ha with ⟨x, hx, rfl⟩
  exact h.exists_cell hx

theorem addr_ne_freshAddr (hx : x ∈ l) (hint : Nat) : x.addr ≠ heap.freshAddr hint := by
  intro heq
  rcases h.exists_cell hx with ⟨v, hcell⟩
  rw [heq, heap.cell_freshAddr] at hcell
  cases hcell

theorem alloc (hint : Nat) (v : ν) :
    Bucket (.ofHeap (heap.alloc hint v) next data) home first i l :=
  h.congr fun _ hx => alloc_of_ne (h.addr_ne_freshAddr hx hint)

end Bucket

/-! ## All buckets -/

def Chained (mem : Memory κ δ) (home : κ → ι) (table : ι → Option Nat)
    (items : ι → List (Item κ δ)) :
    Prop :=
  ∀ i, Bucket mem home (table i) i (items i)

/-- The map that the buckets stand for. -/
def Represents [DecidableEq κ] (home : κ → ι) (items : ι → List (Item κ δ)) (m : κ → Option δ) :
    Prop :=
  ∀ k, m k = (lookup Item.key k (items (home k))).map Item.val

section Chained

variable {mem mem' : Memory κ δ} {home : κ → ι} {table : ι → Option Nat} {items : ι →
  List (Item κ δ)}
  {first : Option Nat} {i : ι} {l : List (Item κ δ)} {m : κ → Option δ} [DecidableEq ι]

/-- A new bucket `i`, if the cells of the other buckets are as they were. -/
theorem Chained.update (h : Chained mem home table items) (hbucket : Bucket mem' home first i l)
    (hother : ∀ j, j ≠ i →
      ∀ x ∈ items j, mem'.next x.addr = mem.next x.addr ∧ mem'.data x.addr = mem.data x.addr) :
    Chained mem' home (update table i first) (update items i l) := by
  intro j
  by_cases hj : j = i
  · rwa [hj, update_self, update_self]
  · rw [update_of_ne hj, update_of_ne hj]
    exact (h j).frame (fun x hx => (hother j hj x hx).1) fun x hx => (hother j hj x hx).2

theorem Chained.update_items (h : Chained mem home table items)
    (hbucket : Bucket mem' home (table i) i l) (hother : ∀ j, j ≠ i →
      ∀ x ∈ items j, mem'.next x.addr = mem.next x.addr ∧ mem'.data x.addr = mem.data x.addr) :
    Chained mem' home table (Function.update items i l) := by
  have hupdate := h.update hbucket hother
  rwa [Function.update_eq_self] at hupdate

/-- An element is freed, and the one in front of it leads past it. -/
theorem Chained.free (h : Chained (.ofHeap heap next data) home table items)
    (hsplit : items i = before ++ x :: after)
    {f : ν → ν} (hnext : ∀ v, next (f v) = (after.map Item.addr).head?)
    (hdata : ∀ v, data (f v) = data v) :
    Chained (.ofHeap ((heap.assign (before.map Item.addr).getLast? f).free x.addr) next data) home
      (Function.update table i ((before ++ after).map Item.addr).head?)
      (Function.update items i (before ++ after)) := by
  have hbucket := h i
  rw [hsplit] at hbucket
  have hsame : ∀ a, (before.map Item.addr).getLast? ≠ some a → a ≠ x.addr →
      ((heap.assign (before.map Item.addr).getLast? f).free x.addr).cell a = heap.cell a :=
        fun a hlast hx =>
    (free_of_ne hx).trans (assign_of_ne hlast)
  refine h.update (hbucket.remove (fun y hy => ?_) (fun c hc => ?_)
    fun a ha hax => (Memory.ofHeap_congr (hsame a ha hax)).1) fun j hj y hy => ?_
  · simp only [Memory.ofHeap, free_of_ne (hbucket.rest_ne hy)]
    exact map_assign hdata ..
  · rcases mem_map.1 (mem_of_getLast? hc) with ⟨p, hp, rfl⟩
    rcases hbucket.exists_cell (mem_append_left _ hp) with ⟨v, hv⟩
    rw [hbucket.next_eq]
    simp [Memory.ofHeap, free_of_ne (hbucket.rest_ne (mem_append_left _ hp)), cell_assign,
      hc, hv, hnext]
  · -- the elements of the other buckets are others
    have hne : ∀ z ∈ items i, y.addr ≠ z.addr := fun z hz => (h j).addr_ne (h i) hj hy hz
    refine Memory.ofHeap_congr (hsame _ (fun hlast => ?_) (hne x (by simp [hsplit])))
    rcases mem_map.1 (mem_of_getLast? hlast) with ⟨p, hp, heq⟩
    exact hne p (by simp [hsplit, hp]) heq.symm

theorem Chained.start_eq (h : Chained mem home table items)
    (hsplit : items i = before ++ x :: after) (hbefore : before ≠ []) :
    Function.update table i ((before ++ after).map Item.addr).head? = table := by
  rcases exists_cons_of_ne_nil hbefore with ⟨y, l, rfl⟩
  have hstart := (h i).start
  rw [hsplit] at hstart
  exact update_eq_self_iff.2 hstart.symm

variable [DecidableEq κ]

variable (h : Represents home items m)

include h

theorem Represents.update {v : Option δ} (hself : (lookup Item.key k l).map Item.val = v)
    (hother : ∀ k', k' ≠ k → lookup Item.key k' l = lookup Item.key k' (items (home k))) :
    Represents home (update items (home k) l) (update m k v) := by
  intro k'
  by_cases hk : k' = k
  · rw [hk, update_self, update_self, hself]
  · rw [update_of_ne hk, h k', update_apply]
    split_ifs with hhome
    · rw [hhome, hother k' hk]
    · rfl

theorem Represents.push (hk : k ∉ (items (home k)).map Item.key) (a : Nat) (v : δ) :
    Represents home (Function.update items (home k) (items (home k) ++ [⟨a, k, v⟩]))
      (Function.update m k (some v)) := by
  apply h.update
  · rw [lookup_push, lookup_eq_none_iff.2 hk, if_pos rfl, none_or, map_some]
  · intro k' hk'
    rw [lookup_push, if_neg (Ne.symm hk'), or_none]

theorem Represents.setLast
    (hitems : items (home k) = l ++ [x]) (hx : x.key = k) (hk : k ∉ l.map Item.key) (v : δ) :
    Represents home (Function.update items (home k) (l ++ [{ x with val := v }]))
      (Function.update m k (some v)) := by
  apply h.update
  · rw [lookup_push, lookup_eq_none_iff.2 hk, if_pos hx, none_or, map_some]
  · intro k' hk'
    have hne : ¬x.key = k' := fun heq => hk' (heq.symm.trans hx)
    rw [hitems, lookup_push, lookup_push, if_neg hne, if_neg hne]

theorem Represents.erase (k : κ) (hnodup : ((items (home k)).map Item.key).Nodup) :
    Represents home (Function.update items (home k) ((items (home k)).eraseP fun x => x.key = k))
      (Function.update m k none) := by
  refine h.update ?_ fun k' hk' => lookup_eraseP_of_ne hk'
  rw [lookup_eraseP_self hnodup, map_none]

end Chained

end SystemsLab.ChainBuckets
