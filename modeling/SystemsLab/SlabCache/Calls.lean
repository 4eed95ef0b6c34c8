import SystemsLab.SlabCache.Objects

/-!
# Sequences of allocations, frees and client writes

The regions of the slabs are disjoint, so an object belongs to one slab only, the one that the
search of `slab_free` finds.  A call changes that slab; for the others it is a write to somebody
else's memory.
-/

namespace SystemsLab.SlabCache

open ByteMemory CallSequence List

variable {m m' : ByteMemory} {size obj : Nat} {slab slab' other : Slab}
  {slabs slabs' rest pre post : List Slab} {live live' : List Nat}

/-- Slabs in different regions. -/
def Distinct (slabs : List Slab) : Prop :=
  (slabs.map Slab.memory).Pairwise fun a b => (⟨a, SLAB_SIZE⟩ : Span).Apart ⟨b, SLAB_SIZE⟩

/-- The objects in use and the free lists of the slabs account for all objects. -/
structure Represents (size : Nat) (m : ByteMemory) (slabs : List Slab) (live : List Nat) :
    Prop where
  ok : ∀ slab ∈ slabs, SlabOk size m live slab
  distinct : Distinct slabs
  held : ∀ o ∈ live, ∃ slab ∈ slabs, slab.contains o
  nodup : live.Nodup

theorem contains_iff : slab.contains obj ↔ slab.memory ≤ obj ∧ obj < slab.memory + SLAB_SIZE := by
  simp [Slab.contains]

theorem Distinct.apart (h : Distinct (slab :: rest)) (hother : other ∈ rest) :
    (⟨other.memory, SLAB_SIZE⟩ : Span).Apart ⟨slab.memory, SLAB_SIZE⟩ :=
  ((pairwise_cons.1 h).1 _ (mem_map_of_mem hother)).symm

theorem Distinct.not_contains (h : Distinct (slab :: rest)) (hin : slab.contains obj)
    (hother : other ∈ rest) : other.contains obj = false := by
  have hap := h.apart hother
  rw [Bool.eq_false_iff]
  intro hcon
  rw [contains_iff] at hin hcon
  simp only [Span.Apart, Span.stop] at hap
  omega

theorem filter_contains_ne (h : slab.contains obj = false) :
    (live.filter fun o => o ≠ obj).filter slab.contains = live.filter slab.contains := by
  rw [filter_filter]
  refine filter_congr fun o _ => ?_
  by_cases ho : o = obj
  · simp [ho, h]
  · simp [ho]

namespace Represents

theorem perm (h : Represents size m slabs live) (hp : slabs.Perm slabs') :
    Represents size m slabs' live where
  ok slab hslab := h.ok slab (hp.mem_iff.2 hslab)
  distinct := ((hp.map Slab.memory).pairwise_iff fun hab => hab.symm).1 h.distinct
  held o ho := by simpa only [hp.mem_iff] using h.held o ho
  nodup := h.nodup

theorem swap (h : Represents size m (slab :: rest) live) (hmem : slab'.memory = slab.memory)
    (hok : SlabOk size m' live' slab') (hothers : ∀ other ∈ rest, SlabOk size m' live' other)
    (hheld : ∀ o ∈ live', o ∈ live ∨ slab.contains o) (hnodup : live'.Nodup) :
    Represents size m' (slab' :: rest) live' := by
  refine ⟨forall_mem_cons.2 ⟨hok, hothers⟩, ?_, fun o ho => ?_, hnodup⟩
  · simpa [Distinct, hmem] using h.distinct
  · have hcontains : slab'.contains o = slab.contains o := by simp [Slab.contains, hmem]
    rcases hheld o ho with hold | hin
    · simpa [hcontains] using h.held o hold
    · exact ⟨slab', by simp, by rwa [hcontains]⟩

theorem exists_slab (h : Represents size m slabs live) (hobj : obj ∈ live) :
    ∃ pre slab post, slabs = pre ++ slab :: post ∧ slab.contains obj ∧
      obj ∈ objects slab.memory size := by
  rcases h.held obj hobj with ⟨slab, hslab, hin⟩
  rcases append_of_mem hslab with ⟨pre, post, rfl⟩
  exact ⟨pre, slab, post, rfl, hin, (h.ok slab hslab).mem_objects hobj hin⟩

theorem apart (h : Represents size m slabs live) (hslab : slab ∈ slabs)
    (hother : other ∈ slabs) {a : Nat}
    (ha : a ∈ objects other.memory size) (hobj : obj ∈ objects slab.memory size) (hne : a ≠ obj) :
    (⟨a, size⟩ : Span).Apart ⟨obj, size⟩ := by
  rcases append_of_mem hslab with ⟨pre, post, rfl⟩
  rcases mem_cons.1 (perm_middle.mem_iff.1 hother) with rfl | hrest
  · exact objects_apart_of_ne ha hobj hne
  · exact ((h.perm perm_middle).distinct.apart hrest).mono (objects_within ha) (objects_within hobj)

theorem pairwise_live (h : Represents size m slabs live) :
    live.Pairwise fun a b => (⟨a, size⟩ : Span).Apart ⟨b, size⟩ := by
  refine h.nodup.imp_of_mem ?_
  intro a b ha hb hab
  rcases h.held a ha with ⟨other, hother, hina⟩
  rcases h.held b hb with ⟨slab, hslab, hinb⟩
  exact h.apart hslab hother ((h.ok other hother).mem_objects ha hina)
    ((h.ok slab hslab).mem_objects hb hinb) hab

variable (hsize : 8 ≤ size)
include hsize

theorem take (h : Represents size m (slab :: rest) live) (hfree : slab.free_objects ≠ 0) :
    ∃ slab' obj, takeObject m slab = some (slab', obj) ∧ slab'.memory = slab.memory ∧
      Represents size m (slab' :: rest) (obj :: live) := by
  rcases (h.ok slab (by simp)).take hsize hfree with ⟨slab', obj, htake, hmem, hobj, hnot, hok⟩
  have hin : slab.contains obj := contains_of_mem (by omega) hobj
  refine ⟨slab', obj, htake, hmem,
    h.swap hmem hok (fun other hother => ?_) ?_ (nodup_cons.2 ⟨hnot, h.nodup⟩)⟩
  · refine (h.ok other (by simp [hother])).congr_live (filter_cons_of_neg ?_)
    simp [h.distinct.not_contains hin hother]
  · exact forall_mem_cons.2 ⟨.inr hin, fun o ho => .inl ho⟩

theorem give (h : Represents size m (slab :: rest) live) (hobj : obj ∈ live)
    (hin : slab.contains obj) :
    ∃ m', m.storePtr obj slab.free_list = some m' ∧ Represents size m'
        ({ slab with free_list := some obj, free_objects := slab.free_objects + 1 } :: rest)
        (live.filter fun o => o ≠ obj) := by
  have hslab := h.ok slab (by simp)
  rcases hslab.give hsize hobj hin with ⟨m', hm', hoff, hok⟩
  refine ⟨m', hm', h.swap rfl hok (fun other hother => ?_)
    (fun o ho => .inl (mem_filter.1 ho).1) (h.nodup.filter _)⟩
  have hframe : SlabOk size m' live other := by
    refine (h.ok other (by simp [hother])).frame hsize hoff fun a ha hnot => ?_
    refine (h.apart (by simp) (by simp [hother]) ha (hslab.mem_objects hobj hin) ?_).mono (.refl _)
      (link_within hsize obj)
    rintro rfl
    exact hnot hobj
  exact hframe.congr_live (filter_contains_ne (h.distinct.not_contains hin hother))

theorem write (h : Represents size m slabs live) (hobj : obj ∈ live) {a : Nat} (hlo : obj ≤ a)
    (hhi : a < obj + size) (v : Nat) :
    ∃ m', m.store 1 a v = some m' ∧ Represents size m' slabs live := by
  rcases h.held obj hobj with ⟨slab, hslab, hin⟩
  have hmem := (h.ok slab hslab).mem_objects hobj hin
  have hbyte : (⟨a, 1⟩ : Span).Within ⟨obj, size⟩ := ⟨hlo, hhi⟩
  rcases exists_store ((h.ok slab hslab).accessible hmem hbyte) v with ⟨m', hm', -, hoff⟩
  refine ⟨m', hm', fun other hother => ?_, h.distinct, h.held, h.nodup⟩
  refine (h.ok other hother).frame hsize hoff fun b hb hblive => ?_
  refine (h.apart hslab hother hb hmem ?_).mono (.refl _) hbyte
  rintro rfl
  exact hblive hobj

theorem create (h : Represents size m slabs live) {fresh : Nat} (hfresh : Fresh m fresh) :
    ∃ m' slab, slab_create m size fresh = some (m', slab) ∧ slab.free_objects = SLAB_SIZE / size ∧
      Represents size m' (slab :: slabs) live := by
  have hregion : ∀ other ∈ slabs, (⟨fresh, SLAB_SIZE⟩ : Span).Apart ⟨other.memory, SLAB_SIZE⟩ :=
    fun other hother => hfresh.2.2 _ (h.ok other hother).region
  have hlive : ∀ o ∈ live, ¬(fresh ≤ o ∧ o < fresh + SLAB_SIZE) := by
    rintro o ho ⟨hlo, hhi⟩
    rcases h.held o ho with ⟨other, hother, hin⟩
    have hap := hregion other hother
    rw [contains_iff] at hin
    simp only [Span.Apart, Span.stop] at hap
    omega
  rcases exists_slab_create hsize hfresh hlive with ⟨m', slab, hcreate, hmem, hfree, hoff, hok⟩
  refine ⟨m', slab, hcreate, hfree, forall_mem_cons.2 ⟨hok, fun other hother => ?_⟩,
    ?_, ?_, h.nodup⟩
  · refine ((h.ok other hother).grow _).frame hsize hoff fun a ha _ => ?_
    exact (hregion other hother).symm.mono (objects_within ha) (.refl _)
  · refine pairwise_cons.2 ⟨forall_mem_map.2 fun other hother => ?_, h.distinct⟩
    rw [hmem]
    exact hregion other hother
  · intro o ho
    rcases h.held o ho with ⟨other, hother, hin⟩
    exact ⟨other, mem_cons_of_mem _ hother, hin⟩

end Represents

/-! ## The two searches -/

theorem allocIn_spec (m : ByteMemory) (slabs : List Slab) :
    (∃ pre slab post, slabs = pre ++ slab :: post ∧ slab.free_objects ≠ 0 ∧
        allocIn m slabs = (takeObject m slab).map fun r => some (pre ++ r.1 :: post, r.2)) ∨
      (∀ slab ∈ slabs, slab.free_objects = 0) ∧ allocIn m slabs = some none := by
  induction slabs with
  | nil => exact .inr ⟨by simp, rfl⟩
  | cons slab slabs ih =>
    by_cases hfree : slab.free_objects = 0
    · rcases ih with ⟨pre, s, post, rfl, hs, halloc⟩ | ⟨hall, halloc⟩
      · refine .inl ⟨slab :: pre, s, post, rfl, hs, ?_⟩
        cases htake : takeObject m s with
        | none => simp [allocIn, hfree, halloc, htake]
        | some r => simp [allocIn, hfree, halloc, htake]
      · exact .inr ⟨forall_mem_cons.2 ⟨hfree, hall⟩, by simp [allocIn, hfree, halloc]⟩
    · refine .inl ⟨[], slab, slabs, rfl, hfree, ?_⟩
      cases htake : takeObject m slab with
      | none => simp [allocIn, hfree, htake]
      | some r => simp [allocIn, hfree, htake]

theorem freeIn_eq (hpre : ∀ other ∈ pre, other.contains obj = false) (hin : slab.contains obj)
    (hstore : m.storePtr obj slab.free_list = some m') : freeIn m obj (pre ++ slab :: post) = some
      (m', pre ++ { slab with free_list := some obj, free_objects := slab.free_objects + 1 } ::
        post) := by
  induction pre with
  | nil => simp [freeIn, hin, hstore]
  | cons other pre ih =>
    have hrest := ih fun s hs => hpre s (mem_cons_of_mem _ hs)
    simp [freeIn, hpre other mem_cons_self, hrest]

/-! ## Sequences of calls -/

/-- What `slab_alloc` does: a new slab is made only where every slab is full. -/
theorem exists_slab_alloc (hmin : 8 ≤ size) (hmax : size ≤ SLAB_SIZE) {cache : Cache}
    (h : Represents size cache.memory cache.slabs live) (hcache : cache.object_size = size)
    {fresh : Nat} (hfresh : (∃ slab ∈ cache.slabs, slab.free_objects ≠ 0) ∨
      Fresh cache.memory fresh) :
    ∃ cache' obj, slab_alloc cache fresh = some (cache', obj) ∧ cache'.object_size = size ∧
      Represents size cache'.memory cache'.slabs (obj :: live) ∧
      (cache'.slabs.map Slab.memory = cache.slabs.map Slab.memory ∨ ∀ slab ∈ cache.slabs,
        slab.free_objects = 0) := by
  rcases allocIn_spec cache.memory cache.slabs
    with ⟨pre, slab, post, hslabs, hfree, halloc⟩ | ⟨hfull, halloc⟩
  · rw [hslabs] at h
    rcases (h.perm perm_middle).take hmin hfree with ⟨slab', obj, htake, hmem, h'⟩
    refine ⟨{ cache with slabs := pre ++ slab' :: post }, obj, ?_, hcache,
      h'.perm perm_middle.symm, .inl ?_⟩
    · simp [slab_alloc, halloc, htake]
    · simp [hslabs, hmem]
  · have hnew : Fresh cache.memory fresh := by
      rcases hfresh with ⟨slab, hslab, hfree⟩ | hnew
      · exact absurd (hfull slab hslab) hfree
      · exact hnew
    rcases h.create hmin hnew with ⟨m', slab, hcreate, hcount, h1⟩
    have hfree : slab.free_objects ≠ 0 := by
      have hpos := Nat.div_pos hmax (show 0 < size by omega)
      omega
    rcases h1.take hmin hfree with ⟨slab', obj, htake, -, h'⟩
    refine ⟨⟨m', slab' :: cache.slabs, cache.object_size⟩, obj, ?_, hcache, h', .inr hfull⟩
    simp [slab_alloc, halloc, hcache, hcreate, htake]

theorem exists_call (hmin : 8 ≤ size) (hmax : size ≤ SLAB_SIZE) {s : Session}
    (h : s.cache.object_size = size ∧ Represents size s.cache.memory s.cache.slabs s.live)
    (c : Call) (hc : allowed s c) : ∃ s', call s c = some s' ∧ s'.cache.object_size = size ∧
      Represents size s'.cache.memory s'.cache.slabs s'.live := by
  rcases h with ⟨hcache, h⟩
  cases c with
  | alloc fresh =>
    simp only [allowed, Bool.or_eq_true, any_eq_true, decide_eq_true_eq] at hc
    rcases exists_slab_alloc hmin hmax h hcache hc with ⟨cache', obj, halloc, hcache', h', -⟩
    refine ⟨⟨cache', obj :: s.live⟩, ?_, hcache', h'⟩
    simp [call, halloc]
  | free obj =>
    have hobj : obj ∈ s.live := by simpa [allowed] using hc
    rcases h.exists_slab hobj with ⟨pre, slab, post, hslabs, hin, -⟩
    rw [hslabs] at h
    have hfront := h.perm perm_middle
    rcases hfront.give hmin hobj hin with ⟨m', hm', h'⟩
    refine ⟨⟨⟨m', _, s.cache.object_size⟩, _⟩, ?_, hcache, h'.perm perm_middle.symm⟩
    have hpre : ∀ other ∈ pre, other.contains obj = false := fun other hother =>
      hfront.distinct.not_contains hin (mem_append_left _ hother)
    simp [call, slab_free, hslabs, freeIn_eq hpre hin hm']
  | write a v =>
    simp only [allowed, any_eq_true, decide_eq_true_eq, hcache] at hc
    rcases hc with ⟨obj, hobj, hlo, hhi⟩
    rcases h.write hmin hobj hlo hhi v.toNat with ⟨m', hm', h'⟩
    refine ⟨⟨⟨m', s.cache.slabs, s.cache.object_size⟩, s.live⟩, ?_, hcache, h'⟩
    simp [call, hm']

/-- After every sequence of calls the objects in use lie apart, inside their slabs; every free list
is free of cycles and as long as its counter says; no object is missing; and the next allocation
succeeds, with a new slab only where all slabs are full. -/
theorem slab_hands_out_once (memory : ByteMemory) (size : Nat) (hmin : 8 ≤ size)
    (hmax : size ≤ SLAB_SIZE) (calls : List Call)
    (hcalls : guarded call allowed (start memory size) calls) :
    ∃ s, runCalls call (start memory size) calls = some s ∧
      (s.live.Pairwise fun a b => (⟨a, size⟩ : Span).Apart ⟨b, size⟩) ∧
      (∀ o ∈ s.live, ∃ slab ∈ s.cache.slabs, (⟨o, size⟩ : Span).Within ⟨slab.memory, SLAB_SIZE⟩) ∧
      (∀ slab ∈ s.cache.slabs, ∃ l, s.cache.memory.elements 0 SLAB_SIZE slab.free_list =
        some l ∧ l.Nodup ∧ l.length = slab.free_objects ∧
          (s.live.filter slab.contains).length + slab.free_objects = SLAB_SIZE / size) ∧
      ∀ fresh, allowed s (.alloc fresh) →
        ∃ cache obj, slab_alloc s.cache fresh = some (cache, obj) ∧
        (cache.slabs.map Slab.memory = s.cache.slabs.map Slab.memory ∨
          ∀ slab ∈ s.cache.slabs, slab.free_objects = 0) := by
  have hstart : Represents size memory [] [] :=
    ⟨fun slab h => (nomatch h), List.Pairwise.nil, fun o h => (nomatch h), nodup_nil⟩
  rcases runCalls_guarded (R := fun s _ => s.cache.object_size = size ∧
      Represents size s.cache.memory s.cache.slabs s.live)
    (fun s _ c _ hs hc => exists_call hmin hmax hs c hc) ⟨rfl, hstart⟩ hcalls
      with ⟨s, hs, hcache, h⟩
  refine ⟨s, hs, h.pairwise_live, fun o ho => ?_, fun slab hslab => ?_, fun fresh hfresh => ?_⟩
  · rcases h.exists_slab ho with ⟨pre, slab, post, hslabs, -, hobj⟩
    exact ⟨slab, by simp [hslabs], objects_within hobj⟩
  · rcases (h.ok slab hslab).free with ⟨l, hl, hlen, hperm⟩
    have htotal := hperm.length_eq
    rw [length_append, length_objects] at htotal
    have hle : SLAB_SIZE / size ≤ SLAB_SIZE := Nat.div_le_self ..
    refine ⟨l, hl.elements_eq (by omega), ?_, hlen.symm, by omega⟩
    exact (hperm.nodup_iff.2 (nodup_objects (by omega))).sublist (sublist_append_left ..)
  · simp only [allowed, Bool.or_eq_true, any_eq_true, decide_eq_true_eq] at hfresh
    rcases exists_slab_alloc hmin hmax h hcache hfresh with ⟨cache, obj, halloc, -, -, hnew⟩
    exact ⟨cache, obj, halloc, hnew⟩

/-- Two objects in each slab: three are taken from two slabs, one is written to and freed, and two
more are taken. -/
def demoCalls : List Call :=
  [.alloc 4096, .alloc 0, .alloc 8192, .write 4100 255, .free 4096, .alloc 0, .alloc 0]

theorem slab_hands_out_once_demo : guarded call allowed (start ⟨fun _ => 0, []⟩ 2048) demoCalls ∧
      ∃ s, runCalls call (start ⟨fun _ => 0, []⟩ 2048) demoCalls = some s ∧
        (s.live.Pairwise fun a b => (⟨a, 2048⟩ : Span).Apart ⟨b, 2048⟩) := by
  have hcalls : guarded call allowed (start ⟨fun _ => 0, []⟩ 2048) demoCalls := by decide +kernel
  rcases slab_hands_out_once ⟨fun _ => 0, []⟩ 2048 (by decide) (by decide) demoCalls hcalls
    with ⟨s, hs, hapart, -⟩
  exact ⟨hcalls, s, hs, hapart⟩

end SystemsLab.SlabCache
