import SystemsLab.Data.ByteMemory
import SystemsLab.Data.CallSequence

/-!
# The slab allocator of `slab-allocator.c`

The objects of a slab lie one behind the other in a region of `SLAB_SIZE` bytes; the link of a free
object is stored in its first eight bytes, where the client had its data before.  The slabs of a
cache are a list, the newest in front.  `aligned_alloc` gives an arbitrary region that is not in
use; every access to memory is checked against the regions, and reading through a `NULL` free list
fails.

A client holds the objects it was given.  It may free each of them once and write to its bytes.
`SlabOk` says that the objects on the free list of a slab and those that clients hold are together
the objects of the slab, each once.
-/

namespace SystemsLab.SlabCache

open CallSequence

def SLAB_SIZE : Nat := 4096

structure Slab where
  memory : Nat
  free_list : Option Nat
  object_size : Nat
  objects_per_slab : Nat
  free_objects : Nat

structure Cache where
  memory : ByteMemory
  slabs : List Slab
  object_size : Nat

def slab_cache_create (memory : ByteMemory) (object_size : Nat) : Cache := ⟨memory, [], object_size⟩

/-- The loop of `slab_create`: `k` more objects from `obj_ptr` on are put on the free list. -/
def threadObjects (object_size : Nat) :
    Nat → ByteMemory → Nat → Option Nat → Option (ByteMemory × Option Nat)
  | 0, memory, _, free_list => some (memory, free_list)
  | k + 1, memory, obj_ptr, free_list => do
      let memory ← memory.storePtr obj_ptr free_list
      threadObjects object_size k memory (obj_ptr + object_size) (some obj_ptr)

/-- `slab_create`, where `aligned_alloc` returns `fresh`. -/
def slab_create (memory : ByteMemory) (object_size fresh : Nat) : Option (ByteMemory × Slab) := do
  let objects_per_slab := SLAB_SIZE / object_size
  let (memory, free_list) ←
    threadObjects object_size objects_per_slab (memory.grow ⟨fresh, SLAB_SIZE⟩) fresh none
  some (memory, ⟨fresh, free_list, object_size, objects_per_slab, objects_per_slab⟩)

def takeObject (memory : ByteMemory) (slab : Slab) : Option (Slab × Nat) := do
  let obj ← slab.free_list
  let next ← memory.link 0 obj
  some ({ slab with free_list := next, free_objects := slab.free_objects - 1 }, obj)

/-- The first slab with a free object gives one; `some none` if there is no such slab. -/
def allocIn (memory : ByteMemory) : List Slab → Option (Option (List Slab × Nat))
  | [] => some none
  | slab :: slabs =>
    if slab.free_objects = 0 then do
      let found ← allocIn memory slabs
      some (found.map fun r => (slab :: r.1, r.2))
    else do
      let (slab, obj) ← takeObject memory slab
      some (some (slab :: slabs, obj))

/-- `slab_alloc`, where a call of `aligned_alloc` would return `fresh`. -/
def slab_alloc (cache : Cache) (fresh : Nat) : Option (Cache × Nat) := do
  let found ← allocIn cache.memory cache.slabs
  match found with
  | some (slabs, obj) => some ({ cache with slabs := slabs }, obj)
  | none => do
      let (memory, slab) ← slab_create cache.memory cache.object_size fresh
      let (slab, obj) ← takeObject memory slab
      some ({ cache with memory := memory, slabs := slab :: cache.slabs }, obj)

/-- `slab_start <= obj < slab_end` -/
def Slab.contains (slab : Slab) (obj : Nat) : Bool :=
  slab.memory ≤ obj && obj < slab.memory + SLAB_SIZE

/-- The loop of `slab_free` over the slabs. -/
def freeIn (memory : ByteMemory) (obj : Nat) : List Slab → Option (ByteMemory × List Slab)
  | [] => some (memory, [])
  | slab :: slabs =>
    if slab.contains obj then do
      let memory ← memory.storePtr obj slab.free_list
      some (memory,
        { slab with free_list := some obj, free_objects := slab.free_objects + 1 } :: slabs)
    else do
      let (memory, slabs) ← freeIn memory obj slabs
      some (memory, slab :: slabs)

def slab_free (cache : Cache) (obj : Nat) : Option Cache := do
  let (memory, slabs) ← freeIn cache.memory obj cache.slabs
  some { cache with memory := memory, slabs := slabs }

/-! ## Clients -/

structure Session where
  cache : Cache
  live : List Nat

inductive Call where
  | alloc (fresh : Nat)
  | free (obj : Nat)
  | write (a : Nat) (v : UInt8)

def start (memory : ByteMemory) (object_size : Nat) : Session :=
  ⟨slab_cache_create memory object_size, []⟩

def call (s : Session) : Call → Option Session
  | .alloc fresh => do
      let (cache, obj) ← slab_alloc s.cache fresh
      some ⟨cache, obj :: s.live⟩
  | .free obj => do
      let cache ← slab_free s.cache obj
      some ⟨cache, s.live.filter fun o => o ≠ obj⟩
  | .write a v => do
      let memory ← s.cache.memory.store 1 a v.toNat
      some { s with cache := { s.cache with memory := memory } }

/-- A region that `aligned_alloc` may return. -/
def Fresh (memory : ByteMemory) (fresh : Nat) : Prop :=
  0 < fresh ∧ fresh + SLAB_SIZE ≤ 2 ^ 64 ∧ ∀ r ∈ memory.regions, (⟨fresh, SLAB_SIZE⟩ : Span).Apart r

instance (memory : ByteMemory) (fresh : Nat) : Decidable (Fresh memory fresh) :=
  inferInstanceAs (Decidable (_ ∧ _ ∧ _))

/-- A new slab, where one is needed, is given unused memory; objects are freed and written to by
clients that hold them. -/
def allowed (s : Session) : Call → Bool
  | .alloc fresh =>
    (s.cache.slabs.any fun slab => slab.free_objects ≠ 0) || Fresh s.cache.memory fresh
  | .free obj => obj ∈ s.live
  | .write a _ => s.live.any fun o => o ≤ a ∧ a < o + s.cache.object_size

/-! ## The objects of a region -/

open ByteMemory List

variable {m m' : ByteMemory} {base size obj : Nat} {slab : Slab} {live : List Nat}

def objects (base size : Nat) : List Nat :=
  (List.range (SLAB_SIZE / size)).map fun k => base + k * size

theorem length_objects : (objects base size).length = SLAB_SIZE / size := by
  rw [objects, length_map, length_range]

theorem objects_within (hobj : obj ∈ objects base size) :
    (⟨obj, size⟩ : Span).Within ⟨base, SLAB_SIZE⟩ := by
  rcases mem_map.1 hobj with ⟨k, hk, rfl⟩
  have hfits : (k + 1) * size ≤ SLAB_SIZE :=
    (Nat.mul_le_mul_right size (mem_range.1 hk)).trans (Nat.div_mul_le_self ..)
  rw [Nat.succ_mul] at hfits
  refine ⟨Nat.le_add_right .., ?_⟩
  simp only [Span.stop]
  omega

theorem objects_apart {k j : Nat} (h : k < j) :
    (⟨base + k * size, size⟩ : Span).Apart ⟨base + j * size, size⟩ := by
  have hle : (k + 1) * size ≤ j * size := Nat.mul_le_mul_right size h
  rw [Nat.succ_mul] at hle
  exact .inl (by simp only [Span.stop]; omega)

theorem pairwise_objects :
    (objects base size).Pairwise fun a b => (⟨a, size⟩ : Span).Apart ⟨b, size⟩ :=
  pairwise_map.2 (pairwise_lt_range.imp fun h => objects_apart h)

theorem nodup_objects (hsize : 0 < size) : (objects base size).Nodup :=
  pairwise_objects.imp fun h => h.start_ne hsize hsize

theorem objects_apart_of_ne {a b : Nat} (ha : a ∈ objects base size) (hb : b ∈ objects base size)
    (hab : a ≠ b) : (⟨a, size⟩ : Span).Apart ⟨b, size⟩ := by
  have : Std.Symm fun a b : Nat => (⟨a, size⟩ : Span).Apart ⟨b, size⟩ := ⟨fun a b h => h.symm⟩
  exact pairwise_objects.forall ha hb hab

theorem link_within (hsize : 8 ≤ size) (a : Nat) : (⟨a, 8⟩ : Span).Within ⟨a, size⟩ :=
  ⟨Nat.le_refl _, Nat.add_le_add_left hsize a⟩

/-! ## A new slab -/

theorem exists_threadObjects (hsize : 8 ≤ size) (k : Nat) {free_list : Option Nat} {l : List Nat}
    (hl : m.Threaded 0 free_list l) (hacc : m.Accessible ⟨obj, k * size⟩) (hpos : 0 < obj)
    (hfits : obj + k * size ≤ 2 ^ 64) (hlist : ∀ a ∈ free_list, IsAddr a)
    (hap : ∀ a ∈ l, (⟨a, 8⟩ : Span).Apart ⟨obj, k * size⟩) :
    ∃ m' free_list' l', threadObjects size k m obj free_list = some (m', free_list') ∧
      m'.Threaded 0 free_list' l' ∧ l'.Perm (l ++ (List.range k).map fun j => obj + j * size) ∧
      AgreeOff ⟨obj, k * size⟩ m m' := by
  induction k generalizing m obj free_list l with
  | zero => exact ⟨m, free_list, l, rfl, hl, by simp, rfl, fun _ _ => rfl⟩
  | succ k ih =>
    rw [Nat.succ_mul] at hacc hfits hap ⊢
    have hword : (⟨obj, 8⟩ : Span).Within ⟨obj, k * size + size⟩ :=
      ⟨Nat.le_refl _, by simp only [Span.stop]; omega⟩
    have hrest : (⟨obj + size, k * size⟩ : Span).Within ⟨obj, k * size + size⟩ :=
      ⟨Nat.le_add_right .., by simp only [Span.stop]; omega⟩
    rcases exists_storePtr (hacc.mono hword) hlist with ⟨m1, hm1, hlink, hoff1⟩
    have hl1 : m1.Threaded 0 (some obj) (obj :: l) :=
      Threaded.cons (hl.frame hoff1 fun a ha =>
        (hap a ha).mono (.refl _) hword) hlink
    have hap1 : ∀ a ∈ obj :: l, (⟨a, 8⟩ : Span).Apart ⟨obj + size, k * size⟩ := by
      intro a ha
      rcases mem_cons.1 ha with rfl | ha
      · exact .inl (by simp only [Span.stop]; omega)
      · exact (hap a ha).mono (.refl _) hrest
    have hobj : ∀ a ∈ some obj, IsAddr a := by
      rintro a ⟨⟩
      exact ⟨hpos, by omega⟩
    rcases ih hl1 (hoff1.accessible.2 (hacc.mono hrest)) (by omega) (by omega) hobj hap1 with
      ⟨m2, free_list', l', hm2, hl', hperm, hoff2⟩
    refine ⟨m2, free_list', l', ?_, hl', hperm.trans ?_,
      (hoff1.mono hword).trans (hoff2.mono hrest)⟩
    · rwa [threadObjects, hm1]
    · rw [range_succ_eq_map, map_cons, Nat.zero_mul, map_map, cons_append]
      refine perm_middle.symm.trans (List.Perm.of_eq ?_)
      congr 2
      refine map_congr_left fun j _ => ?_
      simp only [Function.comp_apply, Nat.succ_mul]
      omega

/-! ## The objects of a slab -/

/-- The free list of the slab and the objects that clients hold are its objects, each once. -/
structure SlabOk (size : Nat) (m : ByteMemory) (live : List Nat) (slab : Slab) : Prop where
  region : ⟨slab.memory, SLAB_SIZE⟩ ∈ m.regions
  pos : 0 < slab.memory
  fits : slab.memory + SLAB_SIZE ≤ 2 ^ 64
  per_slab : slab.objects_per_slab = SLAB_SIZE / size
  free : ∃ l, m.Threaded 0 slab.free_list l ∧ slab.free_objects = l.length ∧
    (l ++ live.filter slab.contains).Perm (objects slab.memory size)

theorem contains_of_mem (hsize : 0 < size) (hobj : obj ∈ objects slab.memory size) :
    slab.contains obj := by
  rcases objects_within hobj with ⟨hlo, hhi⟩
  simp only [Span.stop] at hlo hhi
  simp only [Slab.contains, Bool.and_eq_true, decide_eq_true_eq]
  omega

namespace SlabOk

variable (hsize : 8 ≤ size)
include hsize

theorem notMem_live {l : List Nat}
    (hl : (l ++ live.filter slab.contains).Perm (objects slab.memory size))
    (hobj : obj ∈ l) : obj ∈ objects slab.memory size ∧ obj ∉ live := by
  have hmem := hl.mem_iff.1 (mem_append_left _ hobj)
  refine ⟨hmem, fun hlive => ?_⟩
  have hnodup := hl.nodup_iff.2 (nodup_objects (by omega))
  refine (nodup_append.1 hnodup).2.2 obj hobj obj (mem_filter.2 ⟨hlive, ?_⟩) rfl
  exact contains_of_mem (by omega) hmem

variable (h : SlabOk size m live slab)

include h

omit hsize in
theorem mem_objects (hlive : obj ∈ live) (hin : slab.contains obj) :
    obj ∈ objects slab.memory size := by
  rcases h.free with ⟨l, -, -, hperm⟩
  exact hperm.mem_iff.1 (mem_append_right _ (mem_filter.2 ⟨hlive, hin⟩))

omit hsize in
theorem accessible (hobj : obj ∈ objects slab.memory size) {s : Span}
    (hs : s.Within ⟨obj, size⟩) : m.Accessible s :=
  ⟨_, h.region, hs.trans (objects_within hobj)⟩

theorem isAddr (hobj : obj ∈ objects slab.memory size) : IsAddr obj := by
  rcases objects_within hobj with ⟨hlo, hhi⟩
  have hpos := h.pos
  have hfits := h.fits
  simp only [Span.stop] at hlo hhi
  exact ⟨by omega, by omega⟩

theorem frame {s : Span} (hoff : AgreeOff s m m')
    (hs : ∀ a ∈ objects slab.memory size, a ∉ live → (⟨a, size⟩ : Span).Apart s) :
    SlabOk size m' live slab := by
  rcases h.free with ⟨l, hl, hlen, hperm⟩
  refine ⟨by rw [hoff.regions]; exact h.region, h.pos, h.fits, h.per_slab, l, ?_, hlen, hperm⟩
  refine hl.frame hoff fun a ha => ?_
  rcases notMem_live hsize hperm ha with ⟨hobj, hlive⟩
  exact (hs a hobj hlive).mono (link_within hsize a) (.refl _)

omit hsize in
theorem congr_live {live' : List Nat}
    (hlive : live'.filter slab.contains = live.filter slab.contains) :
    SlabOk size m live' slab := by
  rcases h.free with ⟨l, hl, hlen, hperm⟩
  exact ⟨h.region, h.pos, h.fits, h.per_slab, l, hl, hlen, by rwa [hlive]⟩

omit hsize in
theorem grow (r : Span) : SlabOk size (m.grow r) live slab := by
  rcases h.free with ⟨l, hl, hlen, hperm⟩
  exact ⟨mem_cons_of_mem _ h.region, h.pos, h.fits, h.per_slab, l, hl.grow r, hlen, hperm⟩

theorem take (hfree : slab.free_objects ≠ 0) :
    ∃ slab' obj, takeObject m slab = some (slab', obj) ∧ slab'.memory = slab.memory ∧
      obj ∈ objects slab.memory size ∧ obj ∉ live ∧ SlabOk size m (obj :: live) slab' := by
  rcases h.free with ⟨l, hl, hlen, hperm⟩
  cases l with
  | nil => exact absurd hlen hfree
  | cons obj l =>
    rcases hl.pop with ⟨hlink, hrest⟩
    rcases notMem_live hsize hperm mem_cons_self with ⟨hobj, hnot⟩
    refine ⟨{ slab with free_list := l.head?, free_objects := slab.free_objects - 1 }, obj, ?_, rfl,
      hobj, hnot, h.region, h.pos, h.fits, h.per_slab, l, hrest, ?_, ?_⟩
    · have hhead : slab.free_list = some obj := hl.head
      simp [takeObject, hhead, hlink]
    · simp [hlen]
    · have hin := contains_of_mem (by omega) hobj
      change (l ++ (obj :: live).filter slab.contains).Perm (objects slab.memory size)
      rw [filter_cons_of_pos hin]
      exact perm_middle.trans hperm

theorem give (hlive : obj ∈ live) (hin : slab.contains obj) :
    ∃ m', m.storePtr obj slab.free_list = some m' ∧ AgreeOff ⟨obj, 8⟩ m m' ∧
      SlabOk size m' (live.filter fun o => o ≠ obj)
        { slab with free_list := some obj, free_objects := slab.free_objects + 1 } := by
  have hobj := h.mem_objects hlive hin
  rcases h.free with ⟨l, hl, hlen, hperm⟩
  have hlist : ∀ a ∈ slab.free_list, IsAddr a := by
    intro a ha
    rw [hl.head] at ha
    exact h.isAddr hsize (notMem_live hsize hperm (mem_of_mem_head? ha)).1
  rcases exists_storePtr (h.accessible hobj (link_within hsize obj)) hlist
    with ⟨m', hm', hlink, hoff⟩
  have hl' : m'.Threaded 0 slab.free_list l := by
    refine hl.frame hoff fun a ha => ?_
    rcases notMem_live hsize hperm ha with ⟨haobj, hanot⟩
    have hne : a ≠ obj := by
      rintro rfl
      exact hanot hlive
    exact (objects_apart_of_ne haobj hobj hne).mono (link_within hsize a) (link_within hsize obj)
  refine ⟨m', hm', hoff, by rw [hoff.regions]; exact h.region, h.pos, h.fits, h.per_slab, obj :: l,
    hl'.cons hlink, by simp only [hlen, length_cons], ?_⟩
  -- `obj` moves from the objects in use to the front of the list
  have hnodup : (live.filter slab.contains).Nodup :=
    (hperm.nodup_iff.2 (nodup_objects (by omega))).sublist (sublist_append_right ..)
  have hrest : (live.filter fun o => o ≠ obj).filter slab.contains =
    (live.filter slab.contains).erase obj := by
    rw [hnodup.erase_eq_filter, filter_filter, filter_filter]
    refine filter_congr fun o _ => ?_
    rw [Bool.and_comm]
    congr 1
    by_cases ho : o = obj
    · simp [ho]
    · simp [ho]
  have hout : (live.filter slab.contains).Perm (obj :: (live.filter slab.contains).erase obj) :=
    perm_cons_erase (mem_filter.2 ⟨hlive, hin⟩)
  change (obj :: l ++ (live.filter fun o => o ≠ obj).filter slab.contains).Perm
    (objects slab.memory size)
  rw [hrest]
  exact (perm_middle.symm.trans (hout.symm.append_left l)).trans hperm

end SlabOk

theorem exists_slab_create (hsize : 8 ≤ size) {fresh : Nat} (hfresh : Fresh m fresh)
    (hlive : ∀ o ∈ live, ¬(fresh ≤ o ∧ o < fresh + SLAB_SIZE)) :
    ∃ m' slab, slab_create m size fresh = some (m', slab) ∧ slab.memory = fresh ∧
      slab.free_objects = SLAB_SIZE / size ∧
      AgreeOff ⟨fresh, SLAB_SIZE⟩ (m.grow ⟨fresh, SLAB_SIZE⟩) m' ∧ SlabOk size m' live slab := by
  rcases hfresh with ⟨hpos, hfits, -⟩
  have hdiv : SLAB_SIZE / size * size ≤ SLAB_SIZE := Nat.div_mul_le_self ..
  have hin : (⟨fresh, SLAB_SIZE / size * size⟩ : Span).Within ⟨fresh, SLAB_SIZE⟩ :=
    ⟨Nat.le_refl _, Nat.add_le_add_left hdiv fresh⟩
  have hacc : (m.grow ⟨fresh, SLAB_SIZE⟩).Accessible ⟨fresh, SLAB_SIZE / size * size⟩ :=
    ⟨_, mem_cons_self, hin⟩
  rcases exists_threadObjects hsize (SLAB_SIZE / size) Threaded.nil hacc hpos (by omega)
    (fun a ha => nomatch ha) (fun a ha => nomatch ha) with ⟨m', free_list, l, hm', hl, hperm, hoff⟩
  rw [nil_append] at hperm
  have hnone : live.filter (Slab.contains ⟨fresh, free_list, size, SLAB_SIZE / size,
    SLAB_SIZE / size⟩) = [] := by
    refine filter_eq_nil_iff.2 fun o ho hcon => hlive o ho ?_
    simpa [Slab.contains] using hcon
  have hoff' := hoff.mono hin
  refine ⟨m', ⟨fresh, free_list, size, SLAB_SIZE / size, SLAB_SIZE / size⟩, ?_, rfl, rfl, hoff', ?_⟩
  · simp [slab_create, hm']
  · refine ⟨by rw [hoff'.regions]; exact mem_cons_self, hpos, hfits, rfl, l, hl, ?_, ?_⟩
    · rw [hperm.length_eq, length_map, length_range]
    · rwa [hnone, append_nil]

end SystemsLab.SlabCache
