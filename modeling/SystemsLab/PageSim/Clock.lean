import SystemsLab.Data.CallSequence
import SystemsLab.PageSim.Frames

/-!
# The CLOCK simulator and the pages it gives up

`simulateClock` is the same loop in `BUFFERPOOL_PAGE_REPLACEMENT/clock.c` and in
`ARC/page_cache_simulator_using_lru_clock_arc.c`.  Every frame has a reference bit.  A hit sets the
bit; on a miss the hand goes round, clears the bits that are set and replaces the page of the first
frame whose bit is not set.

The state carries a log of the requests, the bits cleared by the hand and the pages loaded.  The
programs print nothing of it: it is there to say which request came after which turn of the hand.
-/

namespace SystemsLab.PageSim

open CallSequence Function List

/-! ## The simulator -/

/-- What happens to the frames, in the order of time. -/
inductive ClockEvent where
  | request (page : Int)
  | clear (frame : Fin MAX_FRAMES)
  | load (frame : Fin MAX_FRAMES) (old page : Int)
  deriving DecidableEq, Repr

/-- The variables of `simulateClock`, and the log. -/
structure Clock where
  buffer : Fin MAX_FRAMES → Int
  refBit : Fin MAX_FRAMES → Bool
  pointer : Fin MAX_FRAMES
  hits : Int
  misses : Int
  log : List ClockEvent

namespace Clock

def init : Clock where
  buffer := fun _ => -1
  refBit := fun _ => false
  pointer := 0
  hits := 0
  misses := 0
  log := []

/-- `refBit[pointer] = 0; pointer = (pointer + 1) % MAX_FRAMES;` -/
def clear (s : Clock) : Clock :=
  { s with
    refBit := update s.refBit s.pointer false
    pointer := s.pointer + 1
    log := s.log ++ [.clear s.pointer] }

/-- `buffer[pointer] = page; refBit[pointer] = 1; pointer = (pointer + 1) % MAX_FRAMES;` -/
def load (s : Clock) (page : Int) : Clock :=
  { s with
    buffer := update s.buffer s.pointer page
    refBit := update s.refBit s.pointer true
    pointer := s.pointer + 1
    log := s.log ++ [.load s.pointer (s.buffer s.pointer) page] }

/-- The `while (1)` loop, with a bound on the number of its iterations. -/
def victim : Nat → Clock → Int → Option Clock
  | 0, _, _ => none
  | rounds + 1, s, page =>
    if s.refBit s.pointer = false then some (s.load page) else victim rounds s.clear page

/-- `found = 1; refBit[j] = 1; hits++;` -/
def hit (s : Clock) (j : Fin MAX_FRAMES) : Clock :=
  { s with refBit := update s.refBit j true, hits := s.hits + 1 }

/-- The request `page` is taken from the reference string. -/
def logged (s : Clock) (page : Int) : Clock := { s with log := s.log ++ [.request page] }

def request (s : Clock) (page : Int) : Option Clock :=
  match findpage s.buffer page with
  | some j => some ((s.logged page).hit j)
  | none => victim (MAX_FRAMES + 1) { s.logged page with misses := s.misses + 1 } page

end Clock

def simulateClock (pages : List Int) : Option Clock := runCalls Clock.request Clock.init pages

namespace Clock

/-! ## The invariant -/

/-- The hand has cleared the bit of `frame`, and `page` was not requested since. -/
def Unrequested (log : List ClockEvent) (frame : Fin MAX_FRAMES) (page : Int) : Prop :=
  ∃ before since, log = before ++ .clear frame :: since ∧ .clear frame ∉ since ∧
    .request page ∉ since

theorem Unrequested.concat {log : List ClockEvent} {frame : Fin MAX_FRAMES} {page : Int}
    {e : ClockEvent} (h : Unrequested log frame page) (hclear : e ≠ .clear frame)
    (hrequest : e ≠ .request page) : Unrequested (log ++ [e]) frame page := by
  rcases h with ⟨before, since, rfl, hnoclear, hnorequest⟩
  refine ⟨before, since ++ [e], by simp, ?_, ?_⟩
  · simpa [hnoclear] using hclear.symm
  · simpa [hnorequest] using hrequest.symm

structure Inv (s : Clock) : Prop where
  /-- a page is in one frame -/
  distinct : ∀ i j, s.buffer i = s.buffer j → s.buffer i ≠ -1 → i = j
  /-- while there are empty frames, they are the ones from the hand on -/
  filling : (∃ j, s.buffer j = -1) → ∀ j, s.buffer j = -1 ↔ s.pointer ≤ j
  fresh : ∀ j, s.buffer j = -1 → s.refBit j = false
  /-- a page whose bit is not set was not requested since the hand cleared it -/
  cleared : ∀ j, s.buffer j ≠ -1 → s.refBit j = false → Unrequested s.log j (s.buffer j)

theorem init_inv : Inv init where
  distinct := fun i j _ h => absurd rfl h
  filling := fun _ j => by simp [init]
  fresh := fun j _ => rfl
  cleared := fun j h => absurd rfl h

variable {s s' : Clock} {page : Int} {j : Fin MAX_FRAMES}

theorem Inv.pointer_empty (h : Inv s) (hempty : s.buffer j = -1) : s.buffer s.pointer = -1 :=
  (h.filling ⟨j, hempty⟩ s.pointer).2 le_rfl

theorem Inv.clear (h : Inv s) (hbit : s.refBit s.pointer = true) : Inv s.clear := by
  -- the hand clears a bit only if no frame is empty
  have hfull : ∀ j, s.buffer j ≠ -1 := by
    intro j hj
    have hfresh := h.fresh s.pointer (h.pointer_empty hj)
    rw [hbit] at hfresh
    cases hfresh
  refine ⟨h.distinct, fun ⟨j, hj⟩ => absurd hj (hfull j), fun j hj => absurd hj (hfull j), ?_⟩
  intro j hj hclear
  rcases eq_or_ne j s.pointer with rfl | hpointer
  · exact ⟨s.log, [], rfl, by simp, by simp⟩
  · change update s.refBit s.pointer false j = false at hclear
    rw [update_of_ne hpointer] at hclear
    refine (h.cleared j hj hclear).concat ?_ (by simp)
    simpa using Ne.symm hpointer

theorem next_le_iff : ∀ {p j : Fin MAX_FRAMES}, p < j → ∀ k, p + 1 ≤ k ↔ p < k := by
  decide

theorem Inv.load (h : Inv s) (hpage : page ≠ -1) (hmissing : ∀ j, s.buffer j ≠ page) :
    Inv (s.load page) := by
  have hself : (s.load page).buffer s.pointer = page := update_self ..
  have hother : ∀ j, j ≠ s.pointer → (s.load page).buffer j = s.buffer j := fun j hj =>
    update_of_ne hj _ _
  refine ⟨fun i j hij hi => ?_, ?_, fun j hj => ?_, fun j hj hbit => ?_⟩
  · by_cases hip : i = s.pointer
    · by_cases hjp : j = s.pointer
      · rw [hip, hjp]
      · rw [hip, hself, hother j hjp] at hij
        exact absurd hij.symm (hmissing j)
    · by_cases hjp : j = s.pointer
      · rw [hjp, hself, hother i hip] at hij
        exact absurd hij (hmissing i)
      · rw [hother i hip, hother j hjp] at hij
        rw [hother i hip] at hi
        exact h.distinct i j hij hi
  · -- an empty frame is left behind the hand, so the hand does not start over
    rintro ⟨j, hj⟩ k
    have hjp : j ≠ s.pointer := by
      rintro rfl
      exact hpage (hself.symm.trans hj)
    rw [hother j hjp] at hj
    have hlt : s.pointer < j := lt_of_le_of_ne ((h.filling ⟨j, hj⟩ j).1 hj) hjp.symm
    change _ ↔ s.pointer + 1 ≤ k
    rw [next_le_iff hlt k]
    rcases eq_or_ne k s.pointer with rfl | hkp
    · simpa [hself] using hpage
    · rw [hother k hkp, h.filling ⟨j, hj⟩ k, lt_iff_le_and_ne]
      exact ⟨fun hle => ⟨hle, Ne.symm hkp⟩, fun hle => hle.1⟩
  · have hjp : j ≠ s.pointer := by
      rintro rfl
      exact hpage (hself.symm.trans hj)
    rw [hother j hjp] at hj
    exact (update_of_ne hjp _ _).trans (h.fresh j hj)
  · have hjp : j ≠ s.pointer := by
      rintro rfl
      change update s.refBit s.pointer true s.pointer = false at hbit
      rw [update_self] at hbit
      cases hbit
    change update s.refBit s.pointer true j = false at hbit
    rw [update_of_ne hjp] at hbit
    rw [hother j hjp] at hj ⊢
    exact (h.cleared j hj hbit).concat (by simp) (by simp)

/-! ## The victim loop -/

def bits (s : Clock) : Nat := (Finset.univ.filter fun j => s.refBit j = true).card

theorem bits_le (s : Clock) : s.bits ≤ MAX_FRAMES := by
  calc
    s.bits ≤ (Finset.univ : Finset (Fin MAX_FRAMES)).card := Finset.card_filter_le _ _

theorem bits_clear (hbit : s.refBit s.pointer = true) : s.clear.bits < s.bits := by
  apply Finset.card_lt_card
  have hother : ∀ j, s.clear.refBit j = true → j ≠ s.pointer ∧ s.refBit j = true := by
    intro j hj
    change update s.refBit s.pointer false j = true at hj
    by_cases hpointer : j = s.pointer
    · rw [hpointer, update_self] at hj
      cases hj
    · exact ⟨hpointer, by rwa [update_of_ne hpointer] at hj⟩
  refine (Finset.ssubset_iff_of_subset fun j hj => ?_).2 ⟨s.pointer, ?_, fun hmem => ?_⟩
  · rw [Finset.mem_filter] at hj ⊢
    exact ⟨hj.1, (hother j hj.2).2⟩
  · exact Finset.mem_filter.2 ⟨Finset.mem_univ _, hbit⟩
  · exact (hother _ (Finset.mem_filter.1 hmem).2).1 rfl

/-- The loop ends after one iteration more than there are bits set.  It has cleared bits on its way
and loads the page into a frame whose bit is not set. -/
theorem exists_victim (page : Int) {rounds : Nat} (hrounds : s.bits < rounds) (h : Inv s) :
    ∃ t, victim rounds s page = some (t.load page) ∧ Inv t ∧ t.buffer = s.buffer ∧
      t.refBit t.pointer = false := by
  induction rounds generalizing s with
  | zero => omega
  | succ rounds ih =>
    by_cases hbit : s.refBit s.pointer = false
    · exact ⟨s, by rw [victim, if_pos hbit], h, rfl, hbit⟩
    · rw [Bool.not_eq_false] at hbit
      have hless := bits_clear hbit
      rcases ih (by omega) (h.clear hbit) with ⟨t, hvictim, ht, hbuffer, hfree⟩
      refine ⟨t, ?_, ht, hbuffer, hfree⟩
      rw [victim, if_neg (by simp [hbit]), hvictim]

/-! ## One request -/

theorem Inv.logged (h : Inv s) (hbits : ∀ j, s.refBit j = false → s.buffer j ≠ page) :
    Inv (s.logged page) where
  distinct := h.distinct
  filling := h.filling
  fresh := h.fresh
  cleared := fun j hj hbit =>
    (h.cleared j hj hbit).concat (by simp) (by simpa using (hbits j hbit).symm)

theorem Inv.hit (h : Inv s) (hj : s.buffer j ≠ -1) : Inv (s.hit j) := by
  have hbits : ∀ k, (s.hit j).refBit k = false → k ≠ j ∧ s.refBit k = false := by
    intro k hk
    change update s.refBit j true k = false at hk
    by_cases hkj : k = j
    · rw [hkj, update_self] at hk
      cases hk
    · exact ⟨hkj, by rwa [update_of_ne hkj] at hk⟩
  refine ⟨h.distinct, h.filling, fun k hk => ?_, fun k hk hbit => h.cleared k hk (hbits k hbit).2⟩
  have hkj : k ≠ j := by
    rintro rfl
    exact hj hk
  exact (update_of_ne hkj _ _).trans (h.fresh k hk)

/-- The last event of the log has put `page` into `frame` in the place of `old`, a page that was not
requested since the hand last cleared the bit of the frame. -/
def GivenUp (log : List ClockEvent) (frame : Fin MAX_FRAMES) (old page : Int) : Prop :=
  ∃ earlier, log = earlier ++ [.load frame old page] ∧ Unrequested earlier frame old

/-- What a request does to the frames. -/
structure Served (s : Clock) (page : Int) (s' : Clock) : Prop where
  resident : ∃ j, s'.buffer j = page
  full : ∀ frame, s.buffer frame ≠ -1 → s'.buffer frame ≠ s.buffer frame → ∀ j, s.buffer j ≠ -1
  givenUp : ∀ frame, s.buffer frame ≠ -1 → s'.buffer frame ≠ s.buffer frame →
    GivenUp s'.log frame (s.buffer frame) page

theorem Inv.request (h : Inv s) (hpage : page ≠ -1) :
    ∃ s', s.request page = some s' ∧ Inv s' ∧ Served s page s' := by
  rcases findpage_searches s.buffer page with ⟨j, hj, hbuffer⟩ | ⟨hnone, hmissing⟩
  · have hhit := h.hit (j := j) (by rwa [hbuffer])
    refine ⟨(s.logged page).hit j, by rw [Clock.request, hj], ?_, ?_⟩
    · -- the frames whose bit is not set have other pages
      refine hhit.logged fun k hk hkpage => ?_
      change s.buffer k = page at hkpage
      have hkj : k = j := h.distinct k j (hkpage.trans hbuffer.symm) (by rwa [hkpage])
      subst hkj
      change update s.refBit k true k = false at hk
      rw [update_self] at hk
      cases hk
    · exact ⟨⟨j, hbuffer⟩, fun frame _ hne => absurd rfl hne, fun frame _ hne => absurd rfl hne⟩
  · have hlogged := h.logged fun j _ => hmissing j
    have hstart : Inv { s.logged page with misses := s.misses + 1 } :=
      ⟨hlogged.distinct, hlogged.filling, hlogged.fresh, hlogged.cleared⟩
    rcases exists_victim page (Nat.lt_succ_of_le (bits_le _)) hstart
      with ⟨t, hvictim, ht, hbuffer, hfree⟩
    change t.buffer = s.buffer at hbuffer
    refine ⟨t.load page, ?_, ht.load hpage (by rwa [hbuffer]), ?_⟩
    · rwa [Clock.request, hnone]
    · -- only the frame under the hand changes
      have hframe : ∀ frame, (t.load page).buffer frame ≠ s.buffer frame → frame = t.pointer := by
        intro frame hne
        by_contra hother
        exact hne ((update_of_ne hother _ _).trans (congrFun hbuffer frame))
      refine ⟨⟨t.pointer, update_self ..⟩, fun frame hold hne j hj => ?_, fun frame hold hne => ?_⟩
      · obtain rfl := hframe frame hne
        rw [← hbuffer] at hold hj
        exact hold (ht.pointer_empty hj)
      · obtain rfl := hframe frame hne
        rw [← hbuffer] at hold ⊢
        exact ⟨t.log, rfl, ht.cleared _ hold hfree⟩

/-! ## Whole runs -/

theorem run_inv (pages : List Int) (hpages : -1 ∉ pages) :
    ∃ s, simulateClock pages = some s ∧ Inv s := by
  have hstep : ∀ s (_ : List Int) page rest, Inv s ∧ -1 ∉ page :: rest →
      ∃ s', s.request page = some s' ∧ Inv s' ∧ -1 ∉ rest := by
    rintro s - page rest ⟨hinv, hrest⟩
    rw [mem_cons, not_or] at hrest
    rcases hinv.request (Ne.symm hrest.1) with ⟨s', hs', hinv', -⟩
    exact ⟨s', hs', hinv', hrest.2⟩
  rcases @runCalls_along _ _ _ _ [] (fun s _ rest => Inv s ∧ -1 ∉ rest) hstep pages
    ⟨init_inv, hpages⟩ with ⟨s, hrun, hinv, -⟩
  exact ⟨s, hrun, hinv⟩

theorem Inv.residents_nodup (h : Inv s) : (residents s.buffer).Nodup := by
  rw [residents, ofFn_eq_map, filter_map]
  refine List.Nodup.map_on (fun i hi j _ hij => h.distinct i j hij ?_)
    ((nodup_finRange MAX_FRAMES).filter _)
  simpa using (mem_filter.1 hi).2

end Clock

/-- Every request of every reference string is served: the victim loop ends within `MAX_FRAMES + 1`
iterations, the page is then in a frame and every page in one frame only; a page that is replaced is
replaced with all frames in use, and it was not requested since the hand cleared its bit. -/
theorem clock_serves (pages : List Int) (page : Int) (hpages : -1 ∉ pages) (hpage : page ≠ -1) :
    ∃ s s', simulateClock pages = some s ∧ s.request page = some s' ∧
      simulateClock (pages ++ [page]) = some s' ∧
      (residents s'.buffer).Nodup ∧ page ∈ residents s'.buffer ∧
      ∀ frame, s.buffer frame ≠ -1 → s'.buffer frame ≠ s.buffer frame →
        (∀ j, s.buffer j ≠ -1) ∧ Clock.GivenUp s'.log frame (s.buffer frame) page := by
  rcases Clock.run_inv pages hpages with ⟨s, hrun, hinv⟩
  rcases hinv.request hpage with ⟨s', hs', hinv', hserved⟩
  refine ⟨s, s', hrun, hs', ?_, hinv'.residents_nodup, ?_,
    fun frame hold hne => ⟨hserved.full frame hold hne, hserved.givenUp frame hold hne⟩⟩
  · rw [simulateClock] at hrun
    rw [simulateClock, runCalls_append, hrun]
    simp [runCalls, hs']
  · rcases hserved.resident with ⟨j, hj⟩
    rw [residents, mem_filter, mem_ofFn]
    exact ⟨⟨j, hj⟩, by simpa using hpage⟩

/-- The fourth request of the programs' reference string goes round once before it replaces page 1.
-/
theorem clock_serves_fourth : ∃ s s', simulateClock [1, 2, 3] = some s ∧ s.request 4 = some s' ∧
    s.buffer 0 = 1 ∧ s'.buffer 0 = 4 ∧ Clock.GivenUp s'.log 0 1 4 := by
  rcases clock_serves [1, 2, 3] 4 (by decide) (by decide)
    with ⟨s, s', hrun, hs', hrun', -, -, hgiven⟩
  have hold : s.buffer 0 = 1 := by
    have hmap : (simulateClock [1, 2, 3]).map (fun s => s.buffer 0) = some 1 := by decide
    rw [hrun] at hmap
    exact Option.some.inj hmap
  have hnew : s'.buffer 0 = 4 := by
    have hmap : (simulateClock ([1, 2, 3] ++ [4])).map (fun s => s.buffer 0) = some 4 := by decide
    rw [hrun'] at hmap
    exact Option.some.inj hmap
  have hup := (hgiven 0 (by rw [hold]; decide) (by rw [hold, hnew]; decide)).2
  rw [hold] at hup
  exact ⟨s, s', hrun, hs', hold, hnew, hup⟩

end SystemsLab.PageSim
