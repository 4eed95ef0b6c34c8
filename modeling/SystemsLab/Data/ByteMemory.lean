import Mathlib.Algebra.GroupWithZero.Nat
import Mathlib.Data.List.Nodup
import Mathlib.Data.List.Pairwise
import Mathlib.Data.List.Perm.Subperm
import SystemsLab.Data.Chain

/-!
# Words and links in a memory of bytes

Memory is a map from addresses to bytes together with the regions that the program may access.  A
word is `n` bytes, least significant byte first; an access outside the regions fails.

- `Span` — an interval of addresses; `Tiled` — disjoint spans that fill an interval;
- `Threaded` — a linked list whose links are stored in the elements; `elements` — the walk along it.
-/

namespace SystemsLab

open List Option

/-! ## Spans of addresses -/

/-- The `length` addresses from `start` on. -/
structure Span where
  start : Nat
  length : Nat
  deriving DecidableEq

namespace Span

def stop (s : Span) : Nat := s.start + s.length

def Within (s t : Span) : Prop := t.start ≤ s.start ∧ s.stop ≤ t.stop

def Apart (s t : Span) : Prop := s.stop ≤ t.start ∨ t.stop ≤ s.start

instance (s t : Span) : Decidable (s.Within t) := inferInstanceAs (Decidable (_ ∧ _))

instance (s t : Span) : Decidable (s.Apart t) := inferInstanceAs (Decidable (_ ∨ _))

theorem Apart.symm {s t : Span} (h : s.Apart t) : t.Apart s := Or.symm h

theorem Apart.mono {s t s' t' : Span} (h : s.Apart t) (hs : s'.Within s) (ht : t'.Within t) :
    s'.Apart t' := by
  rcases h with h | h
  · exact .inl (Nat.le_trans hs.2 (Nat.le_trans h ht.1))
  · exact .inr (Nat.le_trans ht.2 (Nat.le_trans h hs.1))

theorem Within.refl (s : Span) : s.Within s := ⟨Nat.le_refl _, Nat.le_refl _⟩

theorem Within.trans {s t u : Span} (h : s.Within t) (h' : t.Within u) : s.Within u :=
  ⟨Nat.le_trans h'.1 h.1, Nat.le_trans h.2 h'.2⟩

theorem Apart.start_ne {s t : Span} (h : s.Apart t) (hs : 0 < s.length) (ht : 0 < t.length) :
    s.start ≠ t.start := by
  unfold Apart stop at h
  omega

end Span

/-- The spans are disjoint and fill the addresses from `lo` up to `hi`. -/
structure Tiled (lo hi : Nat) (l : List Span) : Prop where
  apart : l.Pairwise Span.Apart
  covered : ∀ x, (lo ≤ x ∧ x < hi) ↔ ∃ s ∈ l, s.start ≤ x ∧ x < s.stop

namespace Tiled

variable {lo hi : Nat} {s t : Span} {l l' : List Span}

theorem perm (h : Tiled lo hi l) (hl : l.Perm l') : Tiled lo hi l' := by
  refine ⟨(hl.pairwise_iff Span.Apart.symm).1 h.apart, fun x => ?_⟩
  rw [h.covered x]
  simp only [hl.mem_iff]

theorem singleton (s : Span) : Tiled s.start s.stop [s] := ⟨pairwise_singleton .., fun x => by simp⟩

theorem within (h : Tiled lo hi l) (hs : s ∈ l) (hlen : 0 < s.length) :
    lo ≤ s.start ∧ s.stop ≤ hi := by
  have hfirst := (h.covered s.start).2 ⟨s, hs, Nat.le_refl _, by unfold Span.stop; omega⟩
  have hlast := (h.covered (s.stop - 1)).2 ⟨s, hs, by unfold Span.stop; omega, by
    unfold Span.stop; omega⟩
  omega

theorem cut (h : Tiled lo hi (s :: l)) {n : Nat} (hn : n ≤ s.length) :
    Tiled lo hi (⟨s.start, n⟩ :: ⟨s.start + n, s.length - n⟩ :: l) := by
  rcases pairwise_cons.1 h.apart with ⟨hs, hl⟩
  have hleft : (⟨s.start, n⟩ : Span).Within s :=
    ⟨Nat.le_refl _, by unfold Span.stop; dsimp only; omega⟩
  have hright : (⟨s.start + n, s.length - n⟩ : Span).Within s :=
    ⟨by dsimp only; omega, by unfold Span.stop; dsimp only; omega⟩
  constructor
  · rw [pairwise_cons, pairwise_cons]
    refine ⟨fun t ht => ?_, fun t ht => (hs t ht).mono hright (.refl t), hl⟩
    rcases mem_cons.1 ht with rfl | ht
    · exact .inl (Nat.le_refl _)
    · exact (hs t ht).mono hleft (.refl t)
  · intro x
    rw [h.covered x]
    simp only [mem_cons, exists_eq_or_imp, Span.stop]
    constructor
    · rintro (hx | hx)
      · by_cases hcut : x < s.start + n
        · exact .inl ⟨hx.1, hcut⟩
        · exact .inr (.inl ⟨by omega, by omega⟩)
      · exact .inr (.inr hx)
    · rintro (hx | hx | hx)
      · exact .inl ⟨hx.1, by omega⟩
      · exact .inl ⟨by omega, by omega⟩
      · exact .inr hx

theorem nodup_start (h : Tiled lo hi l) (hlen : ∀ s ∈ l, 0 < s.length) :
    (l.map Span.start).Nodup := by
  refine pairwise_map.2 (h.apart.imp_of_mem ?_)
  intro s t hs ht hst
  exact hst.start_ne (hlen s hs) (hlen t ht)

end Tiled

theorem length_le_of_nodup {lo hi : Nat} {l : List Nat} (h : l.Nodup)
    (hl : ∀ a ∈ l, lo ≤ a ∧ a < hi) : l.length ≤ hi - lo := by
  have hsub : l ⊆ List.range' lo (hi - lo) := by
    intro a ha
    rcases hl a ha with ⟨hlo, hhi⟩
    exact mem_range'_1.2 ⟨hlo, by omega⟩
  have hle := (h.subperm hsub).length_le
  rwa [length_range'] at hle

/-! ## Words -/

/-- The number in the `n` bytes from `a` on. -/
def wordAt (byte : Nat → UInt8) : Nat → Nat → Nat
  | 0, _ => 0
  | n + 1, a => (byte a).toNat + 256 * wordAt byte n (a + 1)

/-- `v` written to the `n` bytes from `a` on. -/
def putWord (byte : Nat → UInt8) : Nat → Nat → Nat → Nat → UInt8
  | 0, _, _ => byte
  | n + 1, a, v => putWord (Function.update byte a (UInt8.ofNat v)) n (a + 1) (v / 256)

theorem wordAt_congr {byte byte' : Nat → UInt8} {n a : Nat}
    (h : ∀ x, a ≤ x → x < a + n → byte' x = byte x) : wordAt byte' n a = wordAt byte n a := by
  induction n generalizing a with
  | zero => rfl
  | succ n ih =>
    rw [wordAt, wordAt, h a (Nat.le_refl a) (by omega), ih fun x hx hx' =>
      h x (by omega) (by omega)]

theorem putWord_of_outside {byte : Nat → UInt8} {n a v x : Nat} (h : x < a ∨ a + n ≤ x) :
    putWord byte n a v x = byte x := by
  induction n generalizing byte a v with
  | zero => rfl
  | succ n ih => rw [putWord, ih (by omega), Function.update_of_ne (by omega)]

theorem wordAt_putWord (byte : Nat → UInt8) (n a v : Nat) :
    wordAt (putWord byte n a v) n a = v % 256 ^ n := by
  induction n generalizing byte a v with
  | zero => rw [wordAt, Nat.pow_zero, Nat.mod_one]
  | succ n ih =>
    have hlow : (UInt8.ofNat v).toNat = v % 256 := rfl
    rw [wordAt, putWord, ih, putWord_of_outside (.inl (Nat.lt_succ_self a)),
      Function.update_self, hlow, Nat.pow_succ, mul_comm (256 ^ n) 256, Nat.mod_mul]

/-! ## Checked access -/

/-- The bytes of an address space and the regions of it that belong to the program. -/
structure ByteMemory where
  byte : Nat → UInt8
  regions : List Span

namespace ByteMemory

variable {m m' m'' : ByteMemory} {s t : Span} {n a v : Nat}

/-- The span lies in one of the regions. -/
def Accessible (m : ByteMemory) (s : Span) : Prop := ∃ r ∈ m.regions, s.Within r

instance (m : ByteMemory) (s : Span) : Decidable (m.Accessible s) :=
  inferInstanceAs (Decidable (∃ r ∈ m.regions, s.Within r))

theorem Accessible.mono (h : m.Accessible t) (hst : s.Within t) : m.Accessible s := by
  rcases h with ⟨r, hr, hin⟩
  exact ⟨r, hr, hst.trans hin⟩

def load (m : ByteMemory) (n a : Nat) : Option Nat :=
  if m.Accessible ⟨a, n⟩ then some (wordAt m.byte n a) else none

def store (m : ByteMemory) (n a v : Nat) : Option ByteMemory :=
  if m.Accessible ⟨a, n⟩ then some { m with byte := putWord m.byte n a v } else none

/-- The two memories differ inside the span only. -/
structure AgreeOff (s : Span) (m m' : ByteMemory) : Prop where
  regions : m'.regions = m.regions
  byte : ∀ x, x < s.start ∨ s.stop ≤ x → m'.byte x = m.byte x

theorem AgreeOff.mono (h : AgreeOff s m m') (hst : s.Within t) : AgreeOff t m m' := by
  refine ⟨h.regions, fun x hx => h.byte x ?_⟩
  rcases hst with ⟨hstart, hstop⟩
  omega

theorem AgreeOff.trans (h : AgreeOff s m m') (h' : AgreeOff s m' m'') : AgreeOff s m m'' :=
  ⟨h'.regions.trans h.regions, fun x hx => (h'.byte x hx).trans (h.byte x hx)⟩

theorem AgreeOff.accessible (h : AgreeOff s m m') : m'.Accessible t ↔ m.Accessible t := by
  rw [Accessible, Accessible, h.regions]

theorem AgreeOff.load (h : AgreeOff s m m') (hap : (⟨a, n⟩ : Span).Apart s) :
    m'.load n a = m.load n a := by
  have hword : wordAt m'.byte n a = wordAt m.byte n a := by
    refine wordAt_congr fun x hx hx' => h.byte x ?_
    rcases hap with hap | hap
    · exact .inl (Nat.lt_of_lt_of_le hx' hap)
    · exact .inr (Nat.le_trans hap hx)
  by_cases hacc : m.Accessible ⟨a, n⟩
  · rw [ByteMemory.load, if_pos (h.accessible.2 hacc), ByteMemory.load, if_pos hacc, hword]
  · rw [ByteMemory.load, if_neg (fun hc => hacc (h.accessible.1 hc)), ByteMemory.load, if_neg hacc]

theorem exists_store (h : m.Accessible ⟨a, n⟩) (v : Nat) :
    ∃ m', m.store n a v = some m' ∧ m'.load n a = some (v % 256 ^ n) ∧ AgreeOff ⟨a, n⟩ m m' := by
  have hoff : AgreeOff ⟨a, n⟩ m { m with byte := putWord m.byte n a v } :=
    ⟨rfl, fun x hx => putWord_of_outside hx⟩
  refine ⟨_, if_pos h, ?_, hoff⟩
  rw [load, if_pos (hoff.accessible.2 h), wordAt_putWord]

def grow (m : ByteMemory) (r : Span) : ByteMemory := { m with regions := r :: m.regions }

theorem load_grow {r : Span} (h : m.load n a = some v) : (m.grow r).load n a = some v := by
  by_cases hacc : m.Accessible ⟨a, n⟩
  · rcases hacc with ⟨r', hr', hin⟩
    rw [load, if_pos ⟨r', hr', hin⟩] at h
    rwa [load, if_pos ⟨r', mem_cons_of_mem _ hr', hin⟩]
  · rw [load, if_neg hacc] at h
    cases h

/-! ## Pointers -/

/-- A pointer of eight bytes; zero is `NULL`. -/
def loadPtr (m : ByteMemory) (a : Nat) : Option (Option Nat) :=
  (m.load 8 a).map fun w => if w = 0 then none else some w

def storePtr (m : ByteMemory) (a : Nat) (p : Option Nat) : Option ByteMemory :=
  m.store 8 a (p.getD 0)

/-- An address that a pointer can hold. -/
def IsAddr (a : Nat) : Prop := 0 < a ∧ a < 2 ^ 64

theorem exists_storePtr (h : m.Accessible ⟨a, 8⟩) {p : Option Nat} (hp : ∀ b ∈ p, IsAddr b) :
    ∃ m', m.storePtr a p = some m' ∧ m'.loadPtr a = some p ∧ AgreeOff ⟨a, 8⟩ m m' := by
  rcases exists_store h (p.getD 0) with ⟨m', hm', hload, hoff⟩
  refine ⟨m', hm', ?_, hoff⟩
  rw [loadPtr, hload]
  cases p with
  | none => rfl
  | some b =>
    rcases hp b rfl with ⟨hpos, hlt⟩
    have hfits : b % 256 ^ 8 = b := Nat.mod_eq_of_lt hlt
    rw [map_some, getD_some, hfits, if_neg (Nat.pos_iff_ne_zero.1 hpos)]

theorem AgreeOff.loadPtr (h : AgreeOff s m m') (hap : (⟨a, 8⟩ : Span).Apart s) :
    m'.loadPtr a = m.loadPtr a := by
  rw [ByteMemory.loadPtr, h.load hap, ByteMemory.loadPtr]

/-! ## Lists with the links in their elements -/

open Chain

/-- The link of an element stands `off` bytes behind its start. -/
def link (m : ByteMemory) (off : Nat) (a : Nat) : Option (Option Nat) := m.loadPtr (a + off)

/-- The elements that are reached from `p`, if the links end within `fuel` steps. -/
def elements (m : ByteMemory) (off : Nat) : Nat → Option Nat → Option (List Nat)
  | _, none => some []
  | 0, some _ => none
  | fuel + 1, some a => do
      let next ← m.link off a
      let rest ← elements m off fuel next
      some (a :: rest)

/-- `p` points to the first of the elements `l`, which are linked in this order. -/
structure Threaded (m : ByteMemory) (off : Nat) (p : Option Nat) (l : List Nat) : Prop where
  head : p = l.head?
  links : Linked (m.link off) l none

namespace Threaded

variable {off c : Nat} {p q : Option Nat} {l l1 l2 : List Nat}

theorem nil : Threaded m off none [] := ⟨rfl, trivial⟩

theorem frame (h : Threaded m off p l) (hoff : AgreeOff s m m')
    (hl : ∀ a ∈ l, (⟨a + off, 8⟩ : Span).Apart s) : Threaded m' off p l :=
  ⟨h.head, h.links.congr fun a ha => hoff.loadPtr (hl a ha)⟩

theorem grow (h : Threaded m off p l) (r : Span) : Threaded (m.grow r) off p l := by
  refine ⟨h.head, h.links.congr fun a ha => ?_⟩
  rcases h.links.exists_next ha with ⟨q, hq⟩
  rw [hq]
  rcases map_eq_some_iff.1 hq with ⟨w, hw, rfl⟩
  rw [link, loadPtr, load_grow hw]
  rfl

theorem cons (h : Threaded m off p l) (ha : m.link off a = some p) :
    Threaded m off (some a) (a :: l) := by
  refine ⟨rfl, ?_, h.links⟩
  rw [ha, h.head, or_none]

theorem pop (h : Threaded m off p (a :: l)) :
    m.link off a = some l.head? ∧ Threaded m off l.head? l := by
  have hlink := h.links.1
  rw [or_none] at hlink
  exact ⟨hlink, rfl, h.links.2⟩

/-- A list whose last link is set anew goes on with the list that the new link leads to. -/
theorem redirect {e : Option Nat} (hhead : p = (l1 ++ [c]).head?)
    (hfront : Linked (m.link off) (l1 ++ [c]) e) (hsame : ∀ a ∈ l1, m'.link off a = m.link off a)
    (hc : m'.link off c = some q) (hq : Threaded m' off q l2) :
    Threaded m' off p (l1 ++ c :: l2) := by
  refine ⟨?_, linked_append.2 ⟨(linked_append.1 hfront).1.congr hsame, ?_, hq.links⟩⟩
  · rw [hhead, head?_append, head?_append, head?_cons, head?_cons]
  · rw [hc, hq.head, or_none]

theorem elements_eq (h : Threaded m off p l) {fuel : Nat} (hfuel : l.length ≤ fuel) :
    m.elements off fuel p = some l := by
  induction l generalizing p fuel with
  | nil => rw [h.head, head?_nil, elements]
  | cons a l ih =>
    rcases fuel with _ | fuel
    · rw [length_cons] at hfuel
      omega
    rcases h.pop with ⟨hlink, hrest⟩
    rw [h.head, head?_cons, elements, hlink, bind_eq_bind, bind_some,
      ih hrest (Nat.le_of_succ_le_succ hfuel)]
    rfl

end Threaded
end ByteMemory
end SystemsLab
