import SystemsLab.MemoryPool.Blocks

/-!
# Sequences of allocations, frees and client writes

Each operation of the pool keeps the representation of its blocks.  After any sequence of calls the
free blocks, read off the free list, and the blocks of the clients tile `memory_pool`, and an
allocation fails only where every free block is too small.
-/

namespace SystemsLab.MemoryPool

open ByteMemory Chain CallSequence List Option

variable {place : Place} {p : Pool} {b c : Block} {fr live : List Block}

/-! ## The operations -/

theorem represents_init (place : Place) (byte : Nat → UInt8) :
    ∃ p, pool_init place byte = some p ∧ Represents place p [⟨place.base, POOL_SIZE - sizeofBlock⟩]
      [] := by
  generalize hb : (⟨place.base, POOL_SIZE - sizeofBlock⟩ : Block) = b
  have haddr : b.addr = place.base := by rw [← hb]
  have htiling : Tiling place [b] := by
    have hwhole := Tiled.singleton b.span
    rw [← hb] at hwhole ⊢
    exact hwhole
  rcases exists_store (m := ⟨byte, [⟨place.base, POOL_SIZE⟩]⟩)
    (htiling.accessible (mem_singleton.2 rfl) b.sizeWord_within rfl)
    (sizeSub POOL_SIZE sizeofBlock) with ⟨m1, hm1, hload1, hoff1⟩
  rcases exists_storePtr (p := none)
    (htiling.accessible (mem_singleton.2 rfl) b.nextWord_within hoff1.regions)
    (fun a ha => nomatch ha) with ⟨m2, hm2, hlink2, hoff2⟩
  rw [haddr] at hm1 hm2
  refine ⟨⟨m2, some place.base⟩, ?_, hoff2.regions.trans hoff1.regions, htiling, ?_, ?_⟩
  · simp [pool_init, hm1, hm2]
  · intro c hc
    obtain rfl := mem_singleton.1 hc
    rw [hoff2.load (.inl (le_refl _)), hload1, ← hb]
    rfl
  · rw [← haddr]
    exact Threaded.nil.cons hlink2

namespace Represents

variable (h : Represents place p fr live)

include h

/-- Either a block that is large enough is handed out, or no free block is. -/
theorem allocate (size : UInt64) :
    (∃ p' b free', pool_allocate p size = some (p', some b.payload) ∧ size.toNat ≤ b.size ∧
        Represents place p' free' (b :: live)) ∨
      pool_allocate p size = some (p, none) ∧ ∀ b ∈ fr, b.size < size.toNat := by
  have hsizes : ∀ b ∈ fr, p.memory.load 8 b.addr = some b.size := fun b hb =>
    h.header b (mem_append_left _ hb)
  rcases findFit_spec size.toNat none h.threaded hsizes h.tiling.length_le with
    ⟨pre, b, post, rfl, hfit, hfound⟩ | ⟨hsmall, last, hend⟩
  · refine .inl ?_
    rw [or_none] at hfound
    have hload := h.header b (by simp)
    have hle := h.tiling.size_le (b := b) (by simp)
    -- the request is not larger than the pool, so the sum in the test does not wrap
    have hsum : sizeAdd (sizeAdd size.toNat sizeofBlock) 1 = size.toNat + sizeofBlock + 1 := by
      unfold POOL_SIZE at hle
      rw [sizeAdd_eq (a := size.toNat) (by omega), sizeAdd_eq (by omega)]
    by_cases hlarge : size.toNat + sizeofBlock + 1 ≤ b.size
    · rcases h.split hlarge with ⟨p', hp', h'⟩
      refine ⟨p', _, _, ?_, le_refl _, h'⟩
      simp only [pool_allocate, hfound, hload, hsum, if_pos hlarge, hp', bind_eq_bind, bind_some]
      rfl
    · rcases h.unlink with ⟨p', hp', h'⟩
      refine ⟨p', _, _, ?_, hfit, h'⟩
      simp only [pool_allocate, hfound, hload, hsum, if_neg hlarge, hp', bind_eq_bind, bind_some]
      rfl
  · refine .inr ⟨?_, hsmall⟩
    simp [pool_allocate, hend]

theorem perm_live {live' : List Block} (hl : live.Perm live') : Represents place p fr live' :=
  ⟨h.regions, h.tiling.perm (hl.append_left fr),
    fun b hb => h.header b ((hl.append_left fr).mem_iff.2 hb), h.threaded⟩

theorem perm_filter (hb : b ∈ live) :
    live.Perm (b :: live.filter fun c => c.payload ≠ b.payload) := by
  have hnodup : live.Nodup := h.tiling.nodup.sublist (sublist_append_right ..)
  have haddr : (live.map Block.addr).Nodup :=
    h.tiling.nodup_addr.sublist ((sublist_append_right ..).map _)
  have herase : (live.filter fun c => c.payload ≠ b.payload) = live.erase b := by
    rw [hnodup.erase_eq_filter]
    refine filter_congr fun c hc => ?_
    have hiff : c.payload = b.payload ↔ c = b := by
      constructor
      · intro hcb
        exact inj_on_of_nodup_map haddr hc hb (Nat.add_right_cancel hcb)
      · rintro rfl
        rfl
    by_cases hcb : c = b
    · simp [hcb]
    · simp [hcb, hiff]
  rw [herase]
  exact perm_cons_erase hb

theorem free (hb : b ∈ live) : ∃ p', pool_free p (some b.payload) = some p' ∧
      Represents place p' (b :: fr) (live.filter fun c => c.payload ≠ b.payload) := by
  have hlive := h.perm_live (h.perm_filter hb)
  generalize (live.filter fun c => c.payload ≠ b.payload) = rest at hlive
  have hmem : b ∈ fr ++ b :: rest := by simp
  have hperm : (fr ++ b :: rest).Perm ((b :: fr) ++ rest) := perm_middle
  have hap := (pairwise_cons.1 (hlive.tiling.perm hperm).separate).1
  rcases exists_storePtr (p := p.free_list)
    (hlive.tiling.accessible hmem b.nextWord_within hlive.regions)
    (by rw [h.threaded.head]; exact hlive.tiling.isAddr_head fun d hd => by simp [hd])
    with ⟨m', hm', hlink, hoff⟩
  refine ⟨⟨m', some b.addr⟩, ?_, hoff.regions.trans h.regions, hlive.tiling.perm hperm, ?_, ?_⟩
  · simp [pool_free, Block.payload, hm']
  · intro c hc
    have hc' := hperm.mem_iff.2 hc
    rw [hoff.load (hlive.tiling.separate.sizeWord_apart hc' hmem)]
    exact hlive.header c hc'
  · refine Threaded.cons (h.threaded.frame hoff fun a ha => ?_) hlink
    rcases mem_map.1 ha with ⟨c, hc, rfl⟩
    exact (hap c (mem_append_left _ hc)).symm.mono c.nextWord_within b.nextWord_within

theorem write (hb : b ∈ live) {a : Nat} (hlo : b.payload ≤ a)
    (hhi : a < b.payload + b.size) (v : Nat) :
    ∃ m', p.memory.store 1 a v = some m' ∧ Represents place { p with memory := m' } fr live := by
  have hmem : b ∈ fr ++ live := mem_append_right _ hb
  have hin : (⟨a, 1⟩ : Span).Within b.span := by
    unfold Block.payload at hlo hhi
    simp only [Span.Within, Span.stop, Block.span]
    omega
  rcases exists_store (h.tiling.accessible hmem hin h.regions) v with ⟨m', hm', -, hoff⟩
  have hapart : ∀ c ∈ fr ++ live, ∀ s : Span, s.Within ⟨c.addr, sizeofBlock⟩ → s.Apart ⟨a, 1⟩ := by
    intro c hc s hs
    have hheader : (⟨c.addr, sizeofBlock⟩ : Span).Within c.span :=
      ⟨Nat.le_refl _, by simp only [Span.stop, Block.span]; omega⟩
    rcases h.tiling.separate.cases hc hmem with rfl | hap
    · exact .inl (Nat.le_trans hs.2 hlo)
    · exact hap.mono (hs.trans hheader) hin
  refine ⟨m', hm', hoff.regions.trans h.regions, h.tiling, fun c hc => ?_, ?_⟩
  · have hword : c.sizeWord.Within ⟨c.addr, sizeofBlock⟩ :=
      ⟨Nat.le_refl _, by simp [Span.stop, Block.sizeWord, sizeofBlock]⟩
    exact (hoff.load (hapart c hc _ hword)).trans (h.header c hc)
  · refine h.threaded.frame hoff fun x hx => ?_
    rcases mem_map.1 hx with ⟨c, hc, rfl⟩
    exact hapart c (mem_append_left _ hc) _
      ⟨Nat.le_add_right .., by simp [Span.stop, sizeofBlock, nextOffset]⟩

theorem blockAt_eq (hb : b ∈ fr ++ live) : blockAt p.memory b.addr = some b := by
  rw [blockAt, h.header b hb]
  rfl

theorem freeBlocks_eq : freeBlocks p = some fr := by
  have hblocks : ∀ l : List Block, (∀ b ∈ l, b ∈ fr) →
    (l.map Block.addr).mapM (blockAt p.memory) = some l := by
    intro l hl
    induction l with
    | nil => rfl
    | cons b l ih =>
      rw [map_cons, mapM_cons, h.blockAt_eq (mem_append_left _ (hl b (by simp))),
        ih fun c hc => hl c (mem_cons_of_mem _ hc)]
      rfl
  have hlength : (fr.map Block.addr).length ≤ POOL_SIZE := by
    rw [length_map]
    exact h.tiling.length_le
  rw [freeBlocks, h.threaded.elements_eq hlength]
  exact hblocks fr fun b hb => hb

end Represents

/-! ## Sequences of calls -/

theorem exists_call {s : Session} (h : ∃ free, Represents place s.pool free s.live) (c : Call)
    (hc : allowed s c) :
    ∃ s', call s c = some s' ∧ ∃ free, Represents place s'.pool free s'.live := by
  rcases h with ⟨free, h⟩
  cases c with
  | allocate size =>
    rcases h.allocate size with ⟨p', b, free', hp', -, h'⟩ | ⟨hp, -⟩
    · refine ⟨⟨p', b :: s.live⟩, ?_, free', h'⟩
      have hblock := h'.blockAt_eq (b := b) (by simp)
      simp [call, hp', Block.payload, hblock]
    · refine ⟨s, ?_, free, h⟩
      simp [call, hp]
  | free ptr =>
    simp only [allowed, List.any_eq_true, decide_eq_true_eq] at hc
    rcases hc with ⟨b, hb, rfl⟩
    rcases h.free hb with ⟨p', hp', h'⟩
    refine ⟨⟨p', _⟩, ?_, b :: free, h'⟩
    simp [call, hp']
  | write a v =>
    simp only [allowed, List.any_eq_true, decide_eq_true_eq] at hc
    rcases hc with ⟨b, hb, hlo, hhi⟩
    rcases h.write hb hlo hhi v.toNat with ⟨m', hm', h'⟩
    refine ⟨⟨⟨m', s.pool.free_list⟩, s.live⟩, ?_, free, h'⟩
    simp [call, hm']

/-- After every sequence of allocations, frees of blocks in use and writes to their payloads, the
free list and the blocks in use tile the pool, and the next allocation, of any size, is given enough
or no free block is large enough. -/
theorem pool_never_overlaps (place : Place) (byte : Nat → UInt8) :
    ∃ s0, start place byte = some s0 ∧ ∀ calls, guarded call allowed s0 calls →
      ∃ s free, runCalls call s0 calls = some s ∧ freeBlocks s.pool = some free ∧
        Tiled place.base (place.base + POOL_SIZE) ((free ++ s.live).map Block.span) ∧
          (free.map Block.addr).Nodup ∧
        (∀ b ∈ s.live, blockAt s.pool.memory b.addr = some b) ∧
        ∀ size : UInt64, ∃ p ptr, pool_allocate s.pool size = some (p, ptr) ∧
          (ptr = none → ∀ b ∈ free, b.size < size.toNat) ∧
          ∀ q, ptr = some q →
            ∃ b, q = b.payload ∧ blockAt p.memory b.addr = some b ∧ size.toNat ≤ b.size := by
  rcases represents_init place byte with ⟨p0, hp0, h0⟩
  refine ⟨⟨p0, []⟩, by rw [start, hp0]; rfl, fun calls hcalls => ?_⟩
  rcases runCalls_guarded (R := fun s _ => ∃ free, Represents place s.pool free s.live)
    (fun s _ c _ hs hc => exists_call hs c hc) ⟨_, h0⟩ hcalls with ⟨s, hs, free, h⟩
  refine ⟨s, free, hs, h.freeBlocks_eq, h.tiling, ?_, fun b hb => ?_, fun size => ?_⟩
  · exact h.tiling.nodup_addr.sublist ((sublist_append_left ..).map _)
  · exact h.blockAt_eq (mem_append_right _ hb)
  · rcases h.allocate size with ⟨p', b, free', hp', hsize, h'⟩ | ⟨hp, hsmall⟩
    · refine ⟨p', some b.payload, hp', nofun, ?_⟩
      rintro q ⟨⟩
      exact ⟨b, rfl, h'.blockAt_eq (by simp), hsize⟩
    · exact ⟨s.pool, none, hp, fun _ => hsmall, fun q hq => nomatch hq⟩

/-- The calls of `main`, at an arbitrary address, with a byte written to the second block and its
block freed as well. -/
def demoCalls : List Call :=
  [.allocate 256, .allocate 128, .free 4112, .allocate 512, .write 4384 7, .free 4384,
    .allocate 100]

def demoPlace : Place := ⟨4096, by decide, by decide⟩

theorem pool_never_overlaps_demo : ∃ s0, start demoPlace (fun _ => 0) = some s0 ∧
    guarded call allowed s0 demoCalls ∧
      ∃ s free, runCalls call s0 demoCalls = some s ∧ freeBlocks s.pool = some free ∧
        (free.map Block.addr).Nodup := by
  rcases pool_never_overlaps demoPlace (fun _ => 0) with ⟨s0, hs0, h⟩
  have hcalls : ((start demoPlace fun _ => 0).map fun s => guarded call allowed s demoCalls) =
      some true := by decide +kernel
  rw [hs0, map_some, some_inj] at hcalls
  rcases h demoCalls hcalls with ⟨s, free, hs, hfree, -, hnodup, -⟩
  exact ⟨s0, hs0, hcalls, s, free, hs, hfree, hnodup⟩

end SystemsLab.MemoryPool
