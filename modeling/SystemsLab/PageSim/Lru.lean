import SystemsLab.Data.KeyedList
import SystemsLab.Data.Recent
import SystemsLab.PageSim.Frames
import Mathlib.Data.Fintype.Card

/-!
# The two LRU simulators keep the most recently requested pages

`simulateLRU` of `BUFFERPOOL_PAGE_REPLACEMENT/lru.c` and of
`ARC/page_cache_simulator_using_lru_clock_arc.c` stamp the frame of every request with a counter and
replace the page with the smallest stamp.  They differ in one loop: the first program stops its
search at the first match, the second one runs on to the last match.  So they fill the empty frames
from opposite ends, and the same page is in different frames.

The invariant is an order of the occupied frames by falling stamps, `Ranked`; the pages in that
order are the first `MAX_FRAMES` of `Recent.recent`.
-/

namespace SystemsLab.PageSim

open List Function

open Recent (recent keep)

/-! ## The simulators -/

/-- What a step prints about its request. -/
inductive Report where
  | hit
  | miss
  deriving DecidableEq, Repr

/-- The variables of `simulateLRU`, and the reports printed so far. -/
structure Lru where
  buffer : Fin MAX_FRAMES → Int
  time : Fin MAX_FRAMES → Int
  hits : Int
  misses : Int
  counter : Int
  reports : List Report

namespace Lru

def init : Lru where
  buffer := fun _ => -1
  time := fun _ => 0
  hits := 0
  misses := 0
  counter := 0
  reports := []

/-- `time[frame] = ++counter;` -/
def stamp (s : Lru) (frame : Fin MAX_FRAMES) : Lru :=
  { s with time := update s.time frame (s.counter + 1), counter := s.counter + 1 }

/-- `buffer[frame] = page; time[frame] = ++counter;` -/
def load (s : Lru) (frame : Fin MAX_FRAMES) (page : Int) : Lru :=
  { s.stamp frame with buffer := update s.buffer frame page }

/-- The frame that a missing page goes to: an empty one, else the least recently used one. -/
def place (find : (Fin MAX_FRAMES → Int) → Int → Option (Fin MAX_FRAMES)) (s : Lru) :
    Fin MAX_FRAMES :=
  match find s.buffer (-1) with
  | some empty => empty
  | none => leastFrame s.time

def request (find : (Fin MAX_FRAMES → Int) → Int → Option (Fin MAX_FRAMES)) (s : Lru) (page : Int) :
    Lru :=
  match find s.buffer page with
  | some pos => { s.stamp pos with hits := s.hits + 1, reports := s.reports ++ [.hit] }
  | none =>
    { s.load (s.place find) page with misses := s.misses + 1, reports := s.reports ++ [.miss] }

end Lru

/-- `simulateLRU` of `BUFFERPOOL_PAGE_REPLACEMENT/lru.c` on any reference string. -/
def BufferPool.simulateLRU (pages : List Int) : Lru := pages.foldl (Lru.request findpage) Lru.init

/-- `simulateLRU` of `ARC/page_cache_simulator_using_lru_clock_arc.c` on any reference string. -/
def PageCache.simulateLRU (pages : List Int) : Lru := pages.foldl (Lru.request lastFrame) Lru.init

/-! ## Frames in the order of their stamps -/

namespace Lru

/-- `fs` are the occupied frames, the most recently stamped one first. -/
structure Ranked (s : Lru) (fs : List (Fin MAX_FRAMES)) : Prop where
  nodup : fs.Nodup
  older : fs.Pairwise fun i j => s.time j < s.time i
  stamped : ∀ j ∈ fs, s.time j ≤ s.counter
  loaded : ∀ j, j ∈ fs ↔ s.buffer j ≠ -1

variable {s : Lru} {fs : List (Fin MAX_FRAMES)} {frame : Fin MAX_FRAMES} {page : Int}

theorem init_ranked : Ranked init [] where
  nodup := nodup_nil
  older := Pairwise.nil
  stamped := by simp
  loaded := by simp [init]

theorem Ranked.load (h : Ranked s fs) (frame : Fin MAX_FRAMES) (hpage : page ≠ -1) :
    Ranked (s.load frame page) (frame :: fs.erase frame) := by
  have hne : ∀ j ∈ fs.erase frame, j ≠ frame ∧ j ∈ fs := fun j hj => h.nodup.mem_erase_iff.1 hj
  have htime : ∀ j ∈ fs.erase frame, (s.load frame page).time j = s.time j := fun j hj =>
    update_of_ne (hne j hj).1 _ _
  have hnew : (s.load frame page).time frame = s.counter + 1 := update_self ..
  refine ⟨nodup_cons.2 ⟨h.nodup.not_mem_erase, h.nodup.erase frame⟩,
    pairwise_cons.2 ⟨fun j hj => ?_, ?_⟩, fun j hj => ?_, fun j => ?_⟩
  · -- every other stamp is at most the counter
    have hle := h.stamped j (hne j hj).2
    rw [htime j hj, hnew]
    omega
  · refine (h.older.sublist erase_sublist).imp_of_mem ?_
    intro i j hi hj hlt
    rwa [htime i hi, htime j hj]
  · change _ ≤ s.counter + 1
    rcases mem_cons.1 hj with rfl | hj
    · exact hnew.le
    · have hle := h.stamped j (hne j hj).2
      rw [htime j hj]
      omega
  · rw [mem_cons, h.nodup.mem_erase_iff, h.loaded]
    rcases eq_or_ne j frame with rfl | hj
    · simpa [Lru.load] using hpage
    · simp [Lru.load, hj]

theorem Ranked.map_load (h : Ranked s fs) :
    (frame :: fs.erase frame).map (s.load frame page).buffer = page ::
    (fs.erase frame).map s.buffer := by
  rw [map_cons]
  congr 1
  · exact update_self ..
  · apply map_congr_left
    intro j hj
    exact update_of_ne (h.nodup.mem_erase_iff.1 hj).1 _ _

theorem Ranked.exists_last (h : Ranked s fs) (hfull : ∀ j, j ∈ fs) :
    ∃ rest, fs = rest ++ [leastFrame s.time] := by
  rcases append_of_mem (hfull (leastFrame s.time)) with ⟨rest, after, hfs⟩
  cases after with
  | nil => exact ⟨rest, hfs⟩
  | cons j after =>
    -- a frame behind it would have a smaller stamp
    have holder := h.older
    rw [hfs, pairwise_append, pairwise_cons] at holder
    have hlt := holder.2.1.1 j mem_cons_self
    exact absurd (leastFrame_le s.time j) (by omega)

theorem Ranked.length_le (h : Ranked s fs) : fs.length ≤ MAX_FRAMES := by
  have hle := h.nodup.length_le_card
  rwa [Fintype.card_fin] at hle

/-! ## One request -/

variable {find : (Fin MAX_FRAMES → Int) → Int → Option (Fin MAX_FRAMES)}

theorem request_of_found {pos : Fin MAX_FRAMES} (hpos : find s.buffer page = some pos)
    (hbuffer : s.buffer pos = page) :
    s.request find page = { s.load pos page with hits := s.hits + 1, reports := s.reports ++
      [.hit] } := by
  have hload : s.load pos page = s.stamp pos := by
    rw [Lru.load, ← hbuffer, update_eq_self]
    rfl
  rw [request, hpos, hload]

theorem request_of_missing (hnone : find s.buffer page = none) : s.request find page =
      { s.load (s.place find) page with misses := s.misses + 1, reports := s.reports ++
        [.miss] } := by
  rw [request, hnone]

/-- Loading a page does to the pages what it does to a pool of `MAX_FRAMES` places, if the frame has
the page, or is empty, or is the least recently used one of a full pool. -/
theorem Ranked.map_keep (h : Ranked s fs) (hpages : (fs.map s.buffer).Nodup) (hpage : page ≠ -1)
    (hframe : s.buffer frame = page ∨
      page ∉ fs.map s.buffer ∧ (s.buffer frame = -1 ∨ (∀ j, j ∈ fs) ∧ frame = leastFrame s.time)) :
    page :: (fs.erase frame).map s.buffer = keep MAX_FRAMES (fs.map s.buffer) page := by
  rcases hframe with hbuffer | ⟨hmiss, hempty | ⟨hfull, rfl⟩⟩
  · have hmem : frame ∈ fs := (h.loaded frame).2 (by rwa [hbuffer])
    rw [Recent.keep_of_mem (by simpa using h.length_le) (hbuffer ▸ mem_map_of_mem hmem),
      KeyedList.map_erase_of_nodup hpages hmem, hbuffer]
  · have hnot : frame ∉ fs := fun hmem => (h.loaded frame).1 hmem hempty
    -- the empty frame is one more than those in use
    have hlt : fs.length < MAX_FRAMES := by
      have hle := (h.load frame hpage).length_le
      rwa [erase_of_not_mem hnot] at hle
    rw [Recent.keep_of_lt (by simpa using hlt) hmiss, erase_of_not_mem hnot]
  · rcases h.exists_last hfull with ⟨rest, hfs⟩
    have hlast : leastFrame s.time ∉ rest := by
      have hnodup := h.nodup
      rw [hfs, nodup_append] at hnodup
      exact fun hin => hnodup.2.2 _ hin _ mem_cons_self rfl
    have hlen : MAX_FRAMES = (rest.map s.buffer).length + 1 := by
      have hle := h.length_le
      have hge := ((nodup_finRange MAX_FRAMES).subperm fun j _ => hfull j).length_le
      rw [length_finRange] at hge
      have hcount : fs.length = rest.length + 1 := by rw [hfs, length_append, length_singleton]
      rw [length_map]
      omega
    rw [hfs, map_append] at hmiss
    rw [hfs, erase_append_right _ hlast, erase_cons_head, append_nil, map_append]
    calc
      page :: rest.map s.buffer =
        keep ((rest.map s.buffer).length + 1) (rest.map s.buffer ++ [_]) page :=
        (Recent.keep_of_full hmiss).symm
      _ = _ := by rw [← hlen]; rfl

theorem Ranked.request (hfind : Searches find) (h : Ranked s fs) (hpages : (fs.map s.buffer).Nodup)
    (hpage : page ≠ -1) : (∃ fs', Ranked (s.request find page) fs' ∧
      fs'.map (s.request find page).buffer = keep MAX_FRAMES (fs.map s.buffer) page) ∧
    (s.request find page).reports = s.reports ++
    [if page ∈ fs.map s.buffer then .hit else .miss] := by
  rcases hfind s.buffer page with ⟨pos, hpos, hbuffer⟩ | ⟨hnone, hmissing⟩
  · have hloaded := h.load pos hpage
    have hmem : page ∈ fs.map s.buffer :=
      mem_map.2 ⟨pos, (h.loaded pos).2 (by rwa [hbuffer]), hbuffer⟩
    rw [request_of_found hpos hbuffer, if_pos hmem]
    refine ⟨⟨pos :: fs.erase pos, ⟨hloaded.nodup, hloaded.older, hloaded.stamped, hloaded.loaded⟩,
      ?_⟩, rfl⟩
    exact h.map_load.trans (h.map_keep hpages hpage (.inl hbuffer))
  · have hmiss : page ∉ fs.map s.buffer := by
      intro hmem
      rcases mem_map.1 hmem with ⟨j, -, hj⟩
      exact hmissing j hj
    have hloaded := h.load (s.place find) hpage
    rw [request_of_missing hnone, if_neg hmiss]
    refine ⟨⟨_, ⟨hloaded.nodup, hloaded.older, hloaded.stamped, hloaded.loaded⟩, ?_⟩, rfl⟩
    refine h.map_load.trans (h.map_keep hpages hpage (.inr ⟨hmiss, ?_⟩))
    -- an empty frame, if the search finds one
    rcases hfind s.buffer (-1) with ⟨empty, hempty, hbuffer⟩ | ⟨hnone, hfull⟩
    · left
      rwa [place, hempty]
    · right
      rw [place, hnone]
      exact ⟨fun j => (h.loaded j).2 (hfull j), rfl⟩

/-! ## Whole runs -/

theorem run_ranked (hfind : Searches find) (pages : List Int) (hpages : -1 ∉ pages) :
    ∃ fs, Ranked (pages.foldl (Lru.request find) init) fs ∧
      fs.map (pages.foldl (Lru.request find) init).buffer = (recent pages).take MAX_FRAMES := by
  induction pages using reverseRecOn with
  | nil => exact ⟨[], init_ranked, rfl⟩
  | append_singleton pages page ih =>
    rw [mem_append, mem_singleton, not_or] at hpages
    rcases ih hpages.1 with ⟨fs, hranked, hmap⟩
    have hnodup : (fs.map (pages.foldl (Lru.request find) init).buffer).Nodup := by
      rw [hmap]
      exact (Recent.nodup_recent pages).sublist (take_sublist _ _)
    rcases (hranked.request hfind hnodup (Ne.symm hpages.2)).1 with ⟨fs', hranked', hmap'⟩
    rw [foldl_concat]
    refine ⟨fs', hranked', ?_⟩
    rw [hmap', hmap, Recent.take_recent_concat]

theorem run_reports (hfind : Searches find) (pages : List Int) (page : Int) (hpages : -1 ∉ pages)
    (hpage : page ≠ -1) :
    ((pages ++ [page]).foldl (Lru.request find) init).reports =
    (pages.foldl (Lru.request find) init).reports ++
        [if page ∈ (recent pages).take MAX_FRAMES then .hit else .miss] := by
  rcases run_ranked hfind pages hpages with ⟨fs, hranked, hmap⟩
  have hnodup : (fs.map (pages.foldl (Lru.request find) init).buffer).Nodup := by
    rw [hmap]
    exact (Recent.nodup_recent pages).sublist (take_sublist _ _)
  rw [foldl_concat, (hranked.request hfind hnodup hpage).2, hmap]

theorem Ranked.residents_perm (h : Ranked s fs) : (residents s.buffer).Perm (fs.map s.buffer) := by
  rw [residents, ofFn_eq_map, filter_map]
  refine Perm.map _ ((perm_ext_iff_of_nodup ?_ h.nodup).2 fun j => ?_)
  · exact (nodup_finRange MAX_FRAMES).filter _
  · simp [h.loaded]

theorem reports_agree {find' : (Fin MAX_FRAMES → Int) → Int → Option (Fin MAX_FRAMES)}
    (hfind : Searches find) (hfind' : Searches find') (pages : List Int) (hpages : -1 ∉ pages) :
    (pages.foldl (Lru.request find) init).reports =
    (pages.foldl (Lru.request find') init).reports := by
  induction pages using reverseRecOn with
  | nil => rfl
  | append_singleton pages page ih =>
    rw [mem_append, mem_singleton, not_or] at hpages
    rw [run_reports hfind pages page hpages.1 (Ne.symm hpages.2),
      run_reports hfind' pages page hpages.1 (Ne.symm hpages.2), ih hpages.1]

end Lru

/-- After every reference string both programs have the most recently requested distinct pages in
their frames, as many as there are and at most `MAX_FRAMES`, each in one frame; and they have
reported the same hits and misses. -/
theorem lru_simulators_agree (pages : List Int) (hpages : -1 ∉ pages) :
    (residents (BufferPool.simulateLRU pages).buffer).Perm ((recent pages).take MAX_FRAMES) ∧
    (residents (PageCache.simulateLRU pages).buffer).Perm ((recent pages).take MAX_FRAMES) ∧
    ((recent pages).take MAX_FRAMES).length = min MAX_FRAMES pages.dedup.length ∧
    (BufferPool.simulateLRU pages).reports = (PageCache.simulateLRU pages).reports := by
  rcases Lru.run_ranked findpage_searches pages hpages with ⟨fs, hranked, hmap⟩
  rcases Lru.run_ranked lastFrame_searches pages hpages with ⟨fs', hranked', hmap'⟩
  refine ⟨hmap ▸ hranked.residents_perm, hmap' ▸ hranked'.residents_perm, ?_,
    Lru.reports_agree findpage_searches lastFrame_searches pages hpages⟩
  rw [length_take, Recent.length_recent]

/-- The reference string of the programs. -/
theorem lru_simulators_agree_demo :
    (residents (BufferPool.simulateLRU [1, 2, 3, 4, 1, 2, 5, 1, 2, 3, 4, 5]).buffer).Perm [5, 4,
      3] ∧
    (BufferPool.simulateLRU [1, 2, 3, 4, 1, 2, 5, 1, 2, 3, 4, 5]).reports =
      (PageCache.simulateLRU [1, 2, 3, 4, 1, 2, 5, 1, 2, 3, 4, 5]).reports := by
  have h := lru_simulators_agree [1, 2, 3, 4, 1, 2, 5, 1, 2, 3, 4, 5] (by decide)
  exact ⟨h.1, h.2.2.2⟩

end SystemsLab.PageSim
