import SystemsLab.Data.ByteMemory
import SystemsLab.Data.CallSequence

/-!
# The first-fit pool of `simple-memory-pool.c`

The headers `Block` lie in the bytes of `memory_pool` itself: eight bytes for `size` and eight for
`next`, right before the payload.  The array stands at an arbitrary address; every access is checked
against its bounds.  Sizes are `size_t`, so sums and differences of them are taken modulo `2 ^ 64`.

A client holds the blocks it was given.  It may free each of them once and write bytes of its
payload.

`Represents` ties the bytes of the pool to the list of its free blocks, in the order of the free
list, and to the list of the blocks that clients hold.  Together they tile the pool; each has its
size in its header, and the links run through the free ones.
-/

namespace SystemsLab.MemoryPool

open CallSequence

abbrev Ptr := Nat

def POOL_SIZE : Nat := 1024

def sizeofBlock : Nat := 16

/-- The offset of `next` in `Block`. -/
def nextOffset : Nat := 8

/-- The address of `memory_pool`. -/
structure Place where
  base : Nat
  pos : 0 < base
  fits : base + POOL_SIZE ≤ 2 ^ 64

structure Pool where
  memory : ByteMemory
  free_list : Option Ptr

def sizeAdd (a b : Nat) : Nat := (a + b) % 2 ^ 64

def sizeSub (a b : Nat) : Nat := (a + (2 ^ 64 - b % 2 ^ 64)) % 2 ^ 64

def pool_init (place : Place) (byte : Nat → UInt8) : Option Pool := do
  let memory : ByteMemory := ⟨byte, [⟨place.base, POOL_SIZE⟩]⟩
  let memory ← memory.store 8 place.base (sizeSub POOL_SIZE sizeofBlock)
  let memory ← memory.storePtr (place.base + nextOffset) none
  some ⟨memory, some place.base⟩

/-- The `while` loop of `pool_allocate`: the values of `prev` and `current` when it is left. -/
def findFit (memory : ByteMemory) (size : Nat) :
    Nat → Option Ptr → Option Ptr → Option (Option Ptr × Option Ptr)
  | _, prev, none => some (prev, none)
  | 0, _, some _ => none
  | fuel + 1, prev, some current => do
      let currentSize ← memory.load 8 current
      if size ≤ currentSize then some (prev, some current)
      else do
        let next ← memory.link nextOffset current
        findFit memory size fuel (some current) next

/-- `if (prev) prev->next = target; else free_list = target;` -/
def relink (p : Pool) (prev target : Option Ptr) : Option Pool :=
  match prev with
  | none => some { p with free_list := target }
  | some prev => do
      let memory ← p.memory.storePtr (prev + nextOffset) target
      some { p with memory := memory }

/-- The block `current` is cut behind `size` bytes of payload and the rest becomes a free block. -/
def split (p : Pool) (prev : Option Ptr) (current : Ptr) (currentSize size : Nat) :
    Option Pool := do
  let new_block := current + sizeofBlock + size
  let memory ← p.memory.store 8 new_block (sizeSub (sizeSub currentSize size) sizeofBlock)
  let next ← memory.link nextOffset current
  let memory ← memory.storePtr (new_block + nextOffset) next
  let memory ← memory.store 8 current size
  relink { p with memory := memory } prev (some new_block)

/-- The block `current` is taken whole. -/
def unlink (p : Pool) (prev : Option Ptr) (current : Ptr) : Option Pool := do
  let next ← p.memory.link nextOffset current
  relink p prev next

def pool_allocate (p : Pool) (size : UInt64) : Option (Pool × Option Ptr) := do
  let (prev, current) ← findFit p.memory size.toNat POOL_SIZE none p.free_list
  match current with
  | none => some (p, none)
  | some current => do
      let currentSize ← p.memory.load 8 current
      let p ← if sizeAdd (sizeAdd size.toNat sizeofBlock) 1 ≤ currentSize then
          split p prev current currentSize size.toNat
        else unlink p prev current
      some (p, some (current + sizeofBlock))

def pool_free (p : Pool) (ptr : Option Ptr) : Option Pool :=
  match ptr with
  | none => some p
  | some ptr => do
      let block_to_free := ptr - sizeofBlock
      let memory ← p.memory.storePtr (block_to_free + nextOffset) p.free_list
      some ⟨memory, some block_to_free⟩

/-! ## Blocks and clients -/

structure Block where
  addr : Nat
  size : Nat
  deriving DecidableEq

namespace Block

def payload (b : Block) : Nat := b.addr + sizeofBlock

def span (b : Block) : Span := ⟨b.addr, sizeofBlock + b.size⟩

end Block

def blockAt (memory : ByteMemory) (a : Ptr) : Option Block :=
  (memory.load 8 a).map fun size => ⟨a, size⟩

def freeBlocks (p : Pool) : Option (List Block) := do
  let l ← p.memory.elements nextOffset POOL_SIZE p.free_list
  l.mapM (blockAt p.memory)

structure Session where
  pool : Pool
  live : List Block

inductive Call where
  | allocate (size : UInt64)
  | free (ptr : Ptr)
  | write (a : Nat) (v : UInt8)

def start (place : Place) (byte : Nat → UInt8) : Option Session :=
  (pool_init place byte).map fun p => ⟨p, []⟩

def call (s : Session) : Call → Option Session
  | .allocate size => do
      let (pool, ptr) ← pool_allocate s.pool size
      match ptr with
      | none => some { s with pool := pool }
      | some ptr => do
          let b ← blockAt pool.memory (ptr - sizeofBlock)
          some ⟨pool, b :: s.live⟩
  | .free ptr => do
      let pool ← pool_free s.pool (some ptr)
      some ⟨pool, s.live.filter fun b => b.payload ≠ ptr⟩
  | .write a v => do
      let memory ← s.pool.memory.store 1 a v.toNat
      some { s with pool := { s.pool with memory := memory } }

/-- Only blocks that a client holds are freed, and only payloads of such blocks are written to. -/
def allowed (s : Session) : Call → Bool
  | .allocate _ => true
  | .free ptr => s.live.any fun b => b.payload = ptr
  | .write a _ => s.live.any fun b => b.payload ≤ a ∧ a < b.payload + b.size

/-! ## The blocks in the bytes of the pool -/

open ByteMemory Chain List

variable {place : Place} {p : Pool} {m m' : ByteMemory} {b c : Block} {free live L : List Block}

theorem sizeAdd_eq {a b : Nat} (h : a + b < 2 ^ 64) : sizeAdd a b = a + b := Nat.mod_eq_of_lt h

theorem sizeSub_eq {a b : Nat} (h : b ≤ a) (ha : a < 2 ^ 64) : sizeSub a b = a - b := by
  unfold sizeSub
  omega

/-! ## Blocks that lie apart -/

def Separate (L : List Block) : Prop := L.Pairwise fun b c => b.span.Apart c.span

theorem Separate.cases (h : Separate L) (hb : b ∈ L) (hc : c ∈ L) :
    b = c ∨ b.span.Apart c.span := by
  by_cases hbc : b = c
  · exact .inl hbc
  · have : Std.Symm fun b c : Block => b.span.Apart c.span := ⟨fun b c hbc => hbc.symm⟩
    exact .inr (Pairwise.forall h hb hc hbc)

def Block.sizeWord (b : Block) : Span := ⟨b.addr, 8⟩

def Block.nextWord (b : Block) : Span := ⟨b.addr + nextOffset, 8⟩

theorem Block.sizeWord_within (b : Block) : b.sizeWord.Within b.span :=
  ⟨le_refl _, by simp only [Span.stop, Block.sizeWord, Block.span, sizeofBlock]; omega⟩

theorem Block.nextWord_within (b : Block) : b.nextWord.Within b.span :=
  ⟨Nat.le_add_right .., by
    simp only [Span.stop, Block.nextWord, Block.span, sizeofBlock, nextOffset]; omega⟩

theorem Separate.sizeWord_apart (h : Separate L) (hb : b ∈ L) (hc : c ∈ L) :
    b.sizeWord.Apart c.nextWord := by
  rcases h.cases hb hc with rfl | hap
  · exact .inl (le_refl _)
  · exact hap.mono b.sizeWord_within c.nextWord_within

theorem Separate.nextWord_apart (h : Separate L) (hb : b ∈ L) (hc : c ∈ L) (hbc : b ≠ c) :
    b.nextWord.Apart c.nextWord := by
  rcases h.cases hb hc with rfl | hap
  · exact absurd rfl hbc
  · exact hap.mono b.nextWord_within c.nextWord_within

/-! ## The search -/

/-- First fit: the loop stops at the first block that is large enough, or at the end of the list. -/
theorem findFit_spec (size : Nat) {fuel : Nat} {l : List Block} (prev : Option Ptr) {q : Option Ptr}
    (h : m.Threaded nextOffset q (l.map Block.addr))
    (hsize : ∀ b ∈ l, m.load 8 b.addr = some b.size)
    (hfuel : l.length ≤ fuel) : (∃ pre b post, l = pre ++ b :: post ∧ size ≤ b.size ∧
        findFit m size fuel prev q = some ((pre.getLast?.map Block.addr).or prev, some b.addr)) ∨
      (∀ b ∈ l, b.size < size) ∧ ∃ last, findFit m size fuel prev q = some (last, none) := by
  induction l generalizing fuel prev q with
  | nil => exact .inr ⟨by simp, prev, by simp [h.head, findFit]⟩
  | cons b l ih =>
    rcases fuel with _ | fuel
    · rw [length_cons] at hfuel
      omega
    rcases h.pop with ⟨hlink, hrest⟩
    rcases forall_mem_cons.1 hsize with ⟨hb, hsize'⟩
    by_cases hfit : size ≤ b.size
    · exact .inl ⟨[], b, l, rfl, hfit, by simp [h.head, findFit, hb, hfit]⟩
    · -- the block is too small and becomes `prev`
      have hstep : findFit m size (fuel + 1) prev q =
          findFit m size fuel (some b.addr) (l.map Block.addr).head? := by
        simp [h.head, findFit, hb, hfit, hlink]
      rcases ih (some b.addr) hrest hsize' (Nat.le_of_succ_le_succ hfuel) with
        ⟨pre, c, post, rfl, hc, hfound⟩ | ⟨hsmall, last, hend⟩
      · refine .inl ⟨b :: pre, c, post, rfl, hc, hstep.trans (hfound.trans ?_)⟩
        cases hpre : pre.getLast? with
        | none => simp [getLast?_eq_none_iff.1 hpre]
        | some d => simp [getLast?_cons, hpre]
      · exact .inr ⟨forall_mem_cons.2 ⟨Nat.lt_of_not_le hfit, hsmall⟩, last, hstep.trans hend⟩

/-! ## Setting a link -/

theorem relink_spec {pre tail : List Block} {q e : Option Ptr}
    (hhead : pre ≠ [] → p.free_list = (pre.map Block.addr).head?)
    (hfront : Linked (p.memory.link nextOffset) (pre.map Block.addr) e)
    (htail : p.memory.Threaded nextOffset q (tail.map Block.addr)) (hq : ∀ a ∈ q, IsAddr a)
    (hsep : Separate (pre ++ tail)) (hnodup : (pre ++ tail).Nodup)
    (hacc : ∀ c ∈ pre, p.memory.Accessible c.nextWord) :
    ∃ p', relink p (pre.getLast?.map Block.addr) q = some p' ∧
      p'.memory.Threaded nextOffset p'.free_list ((pre ++ tail).map Block.addr) ∧
        p'.memory.regions = p.memory.regions ∧
      ∀ s : Span, (∀ c ∈ pre, s.Apart c.nextWord) →
        p'.memory.load s.length s.start = p.memory.load s.length s.start := by
  rcases eq_nil_or_concat' pre with rfl | ⟨pre, c, rfl⟩
  · exact ⟨{ p with free_list := q }, rfl, htail, rfl, fun _ _ => rfl⟩
  · rcases exists_storePtr (hacc c (by simp)) hq with ⟨m', hm', hlink, hoff⟩
    have hother : ∀ b ∈ pre ++ tail, m'.link nextOffset b.addr =
      p.memory.link nextOffset b.addr := by
      intro b hb
      have hbc : b ≠ c := by
        rintro rfl
        rw [append_assoc, singleton_append, nodup_middle] at hnodup
        exact (nodup_cons.1 hnodup).1 hb
      refine hoff.loadPtr (hsep.nextWord_apart (b := b) (c := c) ?_ (by simp) hbc)
      rcases mem_append.1 hb with hb | hb
      · simp [hb]
      · simp [hb]
    refine ⟨{ p with memory := m' }, ?_, ?_, hoff.regions, fun s hs => hoff.load (hs c (by simp))⟩
    · simp [relink, hm']
    · rw [map_append, map_append, append_assoc]
      rw [map_append] at hfront
      refine Threaded.redirect ?_ hfront ?_ hlink ⟨htail.head, htail.links.congr ?_⟩
      · rw [hhead (by simp), map_append]
        rfl
      · intro a ha
        rcases mem_map.1 ha with ⟨b, hb, rfl⟩
        exact hother b (mem_append_left _ hb)
      · intro a ha
        rcases mem_map.1 ha with ⟨b, hb, rfl⟩
        exact hother b (mem_append_right _ hb)

/-! ## The representation -/

/-- A tiling of the pool by blocks. -/
def Tiling (place : Place) (L : List Block) : Prop :=
  Tiled place.base (place.base + POOL_SIZE) (L.map Block.span)

namespace Tiling

theorem perm {L' : List Block} (h : Tiling place L) (hL : L.Perm L') : Tiling place L' :=
  Tiled.perm h (hL.map _)

theorem separate (h : Tiling place L) : Separate L := pairwise_map.1 h.apart

theorem span_length (b : Block) : 0 < b.span.length := by
  simp only [Block.span, sizeofBlock]
  omega

section

variable (h : Tiling place L)

include h

theorem bounds (hb : b ∈ L) : place.base ≤ b.addr ∧ b.span.stop ≤ place.base + POOL_SIZE :=
  h.within (mem_map_of_mem hb) (span_length b)

theorem size_le (hb : b ∈ L) : b.size + sizeofBlock ≤ POOL_SIZE := by
  rcases h.bounds hb with ⟨hlo, hhi⟩
  simp only [Span.stop, Block.span] at hhi
  omega

theorem isAddr (hb : b ∈ L) : IsAddr b.addr := by
  rcases h.bounds hb with ⟨hlo, hhi⟩
  have hpos := place.pos
  have hfits := place.fits
  simp only [Span.stop, Block.span, sizeofBlock] at hhi
  exact ⟨by omega, by omega⟩

theorem isAddr_head {l : List Block} (hl : ∀ d ∈ l, d ∈ L) :
    ∀ a ∈ (l.map Block.addr).head?, IsAddr a := by
  intro a ha
  rcases mem_map.1 (mem_of_mem_head? ha) with ⟨d, hd, rfl⟩
  exact h.isAddr (hl d hd)

theorem nodup_addr : (L.map Block.addr).Nodup := by
  have hstart := h.nodup_start fun s hs => by
    rcases mem_map.1 hs with ⟨b, -, rfl⟩
    exact span_length b
  rwa [map_map] at hstart

theorem nodup : L.Nodup := h.nodup_addr.of_map

theorem accessible (hb : b ∈ L) {s : Span} (hs : s.Within b.span)
    (hm : m.regions = [⟨place.base, POOL_SIZE⟩]) : m.Accessible s := by
  refine ⟨⟨place.base, POOL_SIZE⟩, by rw [hm]; exact mem_singleton.2 rfl, ?_⟩
  exact hs.trans (h.bounds hb)

end

theorem length_le (h : Tiling place (free ++ live)) : free.length ≤ POOL_SIZE := by
  have hin : ∀ a ∈ (free ++ live).map Block.addr, place.base ≤ a ∧ a < place.base + POOL_SIZE := by
    intro a ha
    rcases mem_map.1 ha with ⟨b, hb, rfl⟩
    rcases h.bounds hb with ⟨hlo, hhi⟩
    simp only [Span.stop, Block.span, sizeofBlock] at hhi
    exact ⟨hlo, by omega⟩
  have hle := length_le_of_nodup h.nodup_addr hin
  rw [length_map, length_append] at hle
  omega

theorem split (h : Tiling place (b :: L)) (size : Nat) (hsize : size + sizeofBlock ≤ b.size) :
    Tiling place (⟨b.addr, size⟩ :: ⟨b.addr + sizeofBlock + size, b.size - size - sizeofBlock⟩ ::
      L) := by
  have hcut := Tiled.cut h (n := sizeofBlock + size) (by simp only [Block.span]; omega)
  have hnew : (⟨b.span.start + (sizeofBlock + size), b.span.length - (sizeofBlock + size)⟩ : Span) =
      (⟨b.addr + sizeofBlock + size, b.size - size - sizeofBlock⟩ : Block).span := by
    simp only [Block.span, Span.mk.injEq]
    omega
  rwa [hnew] at hcut

end Tiling

/-- The bytes of the pool represent the free blocks `free`, in the order of the free list, and the
blocks `live` that clients hold. -/
structure Represents (place : Place) (p : Pool) (free live : List Block) : Prop where
  regions : p.memory.regions = [⟨place.base, POOL_SIZE⟩]
  tiling : Tiling place (free ++ live)
  header : ∀ b ∈ free ++ live, p.memory.load 8 b.addr = some b.size
  threaded : p.memory.Threaded nextOffset p.free_list (free.map Block.addr)

namespace Represents

variable {pre post tail : List Block} {q : Option Ptr}

theorem perm_taken : ((pre ++ b :: post) ++ live).Perm (b :: (pre ++ post ++ live)) := by
  simp only [append_assoc]
  exact perm_middle

variable (h : Represents place p (pre ++ b :: post) live)

include h

/-- `b` is taken out of the free list behind `pre`, and `tail` takes the place of the blocks from
`b` on.  The memory has changed inside `b` before. -/
theorem relink (p1 : Pool) (hlist : p1.free_list = p.free_list)
    (hoff : AgreeOff b.span p.memory p1.memory)
    (htiling : Tiling place ((pre ++ tail) ++ c :: live))
    (hheader : ∀ d ∈ c :: tail, d ∉ post → p1.memory.load 8 d.addr = some d.size)
    (htail : p1.memory.Threaded nextOffset q (tail.map Block.addr)) :
    ∃ p', MemoryPool.relink p1 (pre.getLast?.map Block.addr) q = some p' ∧
      Represents place p' (pre ++ tail) (c :: live) := by
  have hregions := hoff.regions.trans h.regions
  -- every other block lies apart from `b`
  have hb := (pairwise_cons.1 (h.tiling.perm perm_taken).separate).1
  have hold : ∀ d ∈ pre ++ post ++ live, p1.memory.load 8 d.addr = some d.size := by
    intro d hd
    rw [hoff.load ((hb d hd).symm.mono d.sizeWord_within (.refl _))]
    exact h.header d (perm_taken.mem_iff.2 (mem_cons_of_mem _ hd))
  have hfront : Linked (p1.memory.link nextOffset) (pre.map Block.addr) (some b.addr) := by
    have hlinks := h.threaded.links
    rw [map_append, linked_append] at hlinks
    refine hlinks.1.congr fun a ha => ?_
    rcases mem_map.1 ha with ⟨d, hd, rfl⟩
    exact hoff.loadPtr ((hb d (by simp [hd])).symm.mono d.nextWord_within (.refl _))
  have hhead : pre ≠ [] → p1.free_list = (pre.map Block.addr).head? := by
    intro hpre
    rw [hlist, h.threaded.head, map_append, head?_append_of_ne_nil _ (by simpa using hpre)]
  have hpart : ∀ d ∈ pre ++ tail, d ∈ (pre ++ tail) ++ c :: live := fun d hd =>
    mem_append_left _ hd
  have hq : ∀ a ∈ q, IsAddr a := by
    rw [htail.head]
    exact htiling.isAddr_head fun d hd => hpart d (mem_append_right _ hd)
  rcases relink_spec hhead hfront htail hq (htiling.separate.sublist (sublist_append_left ..))
    (htiling.nodup.sublist (sublist_append_left ..))
    (fun d hd => htiling.accessible (hpart d (mem_append_left _ hd)) d.nextWord_within hregions)
    with ⟨p', hp', hthreaded, hregions', hsame⟩
  refine ⟨p', hp', hregions'.trans hregions, htiling, fun d hd => ?_, hthreaded⟩
  have hload : p'.memory.load 8 d.addr = p1.memory.load 8 d.addr := hsame d.sizeWord fun e he =>
    htiling.separate.sizeWord_apart hd (hpart e (mem_append_left _ he))
  rw [hload]
  by_cases hdpost : d ∈ post
  · exact hold d (by simp [hdpost])
  · simp only [mem_append, mem_cons] at hd
    rcases hd with (hd | hd) | rfl | hd
    · exact hold d (by simp [hd])
    · exact hheader d (mem_cons_of_mem _ hd) hdpost
    · exact hheader d mem_cons_self hdpost
    · exact hold d (by simp [hd])

theorem link_eq : p.memory.link nextOffset b.addr = some (post.map Block.addr).head? ∧
      p.memory.Threaded nextOffset (post.map Block.addr).head? (post.map Block.addr) := by
  have hlinks := h.threaded.links
  rw [map_append, map_cons, linked_append] at hlinks
  exact Threaded.pop ⟨rfl, hlinks.2⟩

theorem unlink : ∃ p', MemoryPool.unlink p (pre.getLast?.map Block.addr) b.addr = some p' ∧
      Represents place p' (pre ++ post) (b :: live) := by
  have hperm : ((pre ++ b :: post) ++ live).Perm ((pre ++ post) ++ b :: live) :=
    perm_taken.trans perm_middle.symm
  have hheader : ∀ d ∈ b :: post, d ∉ post → p.memory.load 8 d.addr = some d.size := by
    intro d hd hdpost
    obtain rfl := (mem_cons.1 hd).resolve_right hdpost
    exact h.header d (by simp)
  rcases h.link_eq with ⟨hnext, hrest⟩
  rcases h.relink p rfl ⟨rfl, fun _ _ => rfl⟩ (h.tiling.perm hperm) hheader hrest with ⟨p', hp', h'⟩
  refine ⟨p', ?_, h'⟩
  rwa [MemoryPool.unlink, hnext]

/-- The block `b` is cut, and its second part is put on the free list in its place. -/
theorem split {size : Nat} (hsize : size + sizeofBlock + 1 ≤ b.size) :
    ∃ p', MemoryPool.split p (pre.getLast?.map Block.addr) b.addr b.size size = some p' ∧
      Represents place p' (pre ++ ⟨b.addr + sizeofBlock + size, b.size - size - sizeofBlock⟩ ::
        post)
        (⟨b.addr, size⟩ :: live) := by
  have hb : b ∈ (pre ++ b :: post) ++ live := by simp
  have hlt : b.size < 2 ^ 64 := by
    have hle := h.tiling.size_le hb
    unfold POOL_SIZE at hle
    omega
  generalize hnew : (⟨b.addr + sizeofBlock + size, b.size - size - sizeofBlock⟩ : Block) = new
  have hnewAddr : new.addr = b.addr + sizeofBlock + size := by rw [← hnew]
  have hnewSize : new.size = b.size - size - sizeofBlock := by rw [← hnew]
  have hwithin : ∀ s : Span, s.Within new.span → s.Within b.span := by
    intro s hs
    refine hs.trans ?_
    simp only [Span.Within, Span.stop, Block.span]
    omega
  have hsizeWord := hwithin _ new.sizeWord_within
  have hnextWord := hwithin _ new.nextWord_within
  -- the three words that are written: size and link of the new block, size of the old one
  rcases exists_store (h.tiling.accessible hb hsizeWord h.regions)
    (sizeSub (sizeSub b.size size) sizeofBlock) with ⟨m1, hm1, hload1, hoff1⟩
  have hlink1 : m1.link nextOffset b.addr = some (post.map Block.addr).head? := by
    rw [← h.link_eq.1]
    refine hoff1.loadPtr (.inl ?_)
    simp only [Span.stop, nextOffset, hnewAddr, sizeofBlock]
    omega
  have hregions1 := hoff1.regions.trans h.regions
  rcases exists_storePtr (p := (post.map Block.addr).head?)
    (h.tiling.accessible hb hnextWord hregions1)
    (h.tiling.isAddr_head fun d hd => by simp [hd]) with ⟨m2, hm2, hlink2, hoff2⟩
  have hregions2 := hoff2.regions.trans hregions1
  rcases exists_store (h.tiling.accessible hb b.sizeWord_within hregions2) size
    with ⟨m3, hm3, hload3, hoff3⟩
  have hoff : AgreeOff b.span p.memory m3 :=
    ((hoff1.mono hsizeWord).trans (hoff2.mono hnextWord)).trans (hoff3.mono b.sizeWord_within)
  have htiling : Tiling place ((pre ++ new :: post) ++ ⟨b.addr, size⟩ :: live) := by
    have hcut := (h.tiling.perm perm_taken).split size (by omega)
    rw [hnew] at hcut
    refine hcut.perm ?_
    refine Perm.trans (Perm.cons _ ?_) perm_middle.symm
    exact perm_taken.symm
  have hnewLoad : m3.load 8 new.addr = some new.size := by
    have hap3 : new.sizeWord.Apart b.sizeWord := by
      refine .inr ?_
      simp only [Span.stop, Block.sizeWord, hnewAddr, sizeofBlock]
      omega
    rw [hoff3.load hap3, hoff2.load (.inl (le_refl _)), hload1, sizeSub_eq (by omega) hlt,
      sizeSub_eq (by omega) (by omega), hnewSize]
    congr 1
    exact Nat.mod_eq_of_lt (by omega)
  have hnewLink : m3.link nextOffset new.addr = some (post.map Block.addr).head? := by
    rw [← hlink2]
    refine hoff3.loadPtr (.inr ?_)
    simp only [Span.stop, nextOffset]
    omega
  have hpost : m3.Threaded nextOffset (post.map Block.addr).head? (post.map Block.addr) := by
    refine h.link_eq.2.frame hoff fun a ha => ?_
    rcases mem_map.1 ha with ⟨d, hd, rfl⟩
    exact ((pairwise_cons.1 (h.tiling.perm perm_taken).separate).1 d (by simp [hd])).symm.mono
      d.nextWord_within (.refl _)
  have hheader : ∀ d ∈ (⟨b.addr, size⟩ : Block) :: new :: post, d ∉ post →
    m3.load 8 d.addr = some d.size := by
    intro d hd hdpost
    simp only [mem_cons, hdpost, or_false] at hd
    rcases hd with rfl | rfl
    · rw [hload3]
      congr 1
      exact Nat.mod_eq_of_lt (by omega)
    · exact hnewLoad
  rcases h.relink ⟨m3, p.free_list⟩ rfl hoff htiling hheader (hpost.cons hnewLink)
    with ⟨p', hp', h'⟩
  refine ⟨p', ?_, h'⟩
  rw [MemoryPool.split, ← hnewAddr, hm1]
  simp only [Option.bind_eq_bind, Option.bind_some, hlink1, hm2, hm3]
  exact hp'

end Represents

end SystemsLab.MemoryPool
