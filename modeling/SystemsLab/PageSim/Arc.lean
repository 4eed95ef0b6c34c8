import SystemsLab.CLib.CArray
import SystemsLab.Data.CallSequence
import SystemsLab.PageSim.Frames

/-!
# The simplified ARC simulator, and the miss that writes outside its array

`simulateARC` of `ARC/page_cache_simulator_using_lru_clock_arc.c` keeps the pages requested once in
`T1` and the pages requested again in `T2`.  The ghost lists `B1` and `B2` are never filled.  Every
access to the four arrays is checked: a request fails if it uses an index outside `0 .. MAX_FRAMES -
1`.

On lists a request is `arcStep`, and `request` computes it as long as `T2` leaves room for a new
page (`Held.request`).  With `T2` full, `T1` is empty; a miss then takes the first page out of `T1`
all the same and writes to `T1[-1]` (`Held.request_fails`).
-/

namespace SystemsLab.PageSim

open CallSequence List Option

/-! ## The simulator -/

/-- `typedef struct { .. } ARC;` -/
structure Arc where
  T1 : CArray Int MAX_FRAMES
  T2 : CArray Int MAX_FRAMES
  B1 : CArray Int MAX_FRAMES
  B2 : CArray Int MAX_FRAMES
  t1Size : Int
  t2Size : Int
  b1Size : Int
  b2Size : Int
  hits : Int
  misses : Int

namespace Arc

/-- The members without an initializer are zero. -/
def init : Arc where
  T1 := CArray.fill 0
  T2 := CArray.fill 0
  B1 := CArray.fill 0
  B2 := CArray.fill 0
  t1Size := 0
  t2Size := 0
  b1Size := 0
  b2Size := 0
  hits := 0
  misses := 0

/-- The loop of `contains`, and the loop of `simulateARC` that looks for the page in `T1`. -/
def search (arr : CArray Int MAX_FRAMES) (size page : Int) : Option (Option Nat) :=
  arr.indexOf page size.toNat 0

def contains (arr : CArray Int MAX_FRAMES) (size page : Int) : Option Bool :=
  (search arr size page).map Option.isSome

/-- The array and the size after the call. -/
def removeFirst (arr : CArray Int MAX_FRAMES) (size : Int) : Option (CArray Int MAX_FRAMES × Int) :=
  (arr.shiftDown (size - 1).toNat 0).map fun arr => (arr, size - 1)

def addLast (arr : CArray Int MAX_FRAMES) (size page : Int) :
    Option (CArray Int MAX_FRAMES × Int) :=
  if 0 ≤ size then (arr.set size.toNat page).map fun arr => (arr, size + 1) else none

/-- Move a page from `T1` to `T2`. -/
def promote (arc : Arc) (page : Int) : Option Arc := do
  match ← search arc.T1 arc.t1Size page with
  | none => do
      let (T2, t2Size) ← addLast arc.T2 arc.t2Size page
      some { arc with T2 := T2, t2Size := t2Size }
  | some j => do
      let T1 ← arc.T1.shiftDown (arc.t1Size - 1 - j).toNat j
      let (T2, t2Size) ← addLast arc.T2 arc.t2Size page
      some { arc with T1 := T1, t1Size := arc.t1Size - 1, T2 := T2, t2Size := t2Size }

/-- `if (arc.t1Size + arc.b1Size == MAX_FRAMES) { .. }` -/
def trim (arc : Arc) : Option Arc :=
  if arc.t1Size + arc.b1Size = MAX_FRAMES then
    if arc.t1Size < MAX_FRAMES then do
      let (B1, b1Size) ← removeFirst arc.B1 arc.b1Size
      some { arc with B1 := B1, b1Size := b1Size }
    else do
      let (T1, t1Size) ← removeFirst arc.T1 arc.t1Size
      some { arc with T1 := T1, t1Size := t1Size }
  else some arc

/-- The rest of a miss. -/
def admitPage (arc : Arc) (page : Int) : Option Arc :=
  if arc.t1Size + arc.t2Size < MAX_FRAMES then do
    let (T1, t1Size) ← addLast arc.T1 arc.t1Size page
    some { arc with T1 := T1, t1Size := t1Size }
  else if arc.t2Size < MAX_FRAMES then do
    let (T2, t2Size) ← removeFirst arc.T2 arc.t2Size
    let (T1, t1Size) ← addLast arc.T1 arc.t1Size page
    some { arc with T1 := T1, t1Size := t1Size, T2 := T2, t2Size := t2Size }
  else do
    let (T1, t1Size) ← removeFirst arc.T1 arc.t1Size
    let (T1, t1Size) ← addLast T1 t1Size page
    some { arc with T1 := T1, t1Size := t1Size }

/-- `contains(arc.T1, arc.t1Size, page) || contains(arc.T2, arc.t2Size, page)` -/
def isHit (arc : Arc) (page : Int) : Option Bool := do
  if ← contains arc.T1 arc.t1Size page then some true else contains arc.T2 arc.t2Size page

def request (arc : Arc) (page : Int) : Option Arc := do
  if ← arc.isHit page then do
    let arc := { arc with hits := arc.hits + 1 }
    if ← contains arc.T1 arc.t1Size page then arc.promote page else some arc
  else do
    let arc ← trim { arc with misses := arc.misses + 1 }
    arc.admitPage page

end Arc

def simulateARC (pages : List Int) : Option Arc := runCalls Arc.request Arc.init pages

/-! ## A request on lists -/

structure Pages where
  once : List Int
  again : List Int

/-- What a request does to the pages, if `T2` leaves room for a new one. -/
def arcStep (l : Pages) (page : Int) : Pages :=
  if page ∈ l.once then ⟨l.once.erase page, l.again ++ [page]⟩
  else if page ∈ l.again then l
  else if l.once.length = MAX_FRAMES then ⟨l.once.tail ++ [page], l.again⟩
  else if l.once.length + l.again.length < MAX_FRAMES then ⟨l.once ++ [page], l.again⟩
  else ⟨l.once ++ [page], l.again.tail⟩

/-- The pages are distinct and there are at most `MAX_FRAMES` of them. -/
structure Pages.Fits (l : Pages) : Prop where
  nodup : (l.once ++ l.again).Nodup
  length_le : l.once.length + l.again.length ≤ MAX_FRAMES

theorem nodup_join {page : Int} {l1 l2 k1 k2 : List Int} (h : (l1 ++ l2).Nodup)
    (hpage : page ∉ l1 ++ l2) (h1 : k1.Sublist l1) (h2 : k2.Sublist l2) :
    (k1 ++ [page] ++ k2).Nodup := by
  have hsub : (k1 ++ k2).Sublist (l1 ++ l2) := h1.append h2
  rw [append_assoc, singleton_append, nodup_middle, nodup_cons]
  exact ⟨fun hmem => hpage (hsub.subset hmem), h.sublist hsub⟩

variable {l : Pages} {page x : Int}

theorem Pages.Fits.arcStep (h : l.Fits) (page : Int) : (arcStep l page).Fits := by
  have hlen := h.length_le
  unfold PageSim.arcStep
  split_ifs with hone hagain hfull hroom
  · -- the page goes from one list to the other
    rcases append_of_mem hone with ⟨before, after, hsplit⟩
    have hnodup := h.nodup
    rw [hsplit, append_assoc, cons_append, nodup_middle] at hnodup
    have hbefore : page ∉ before := fun hmem => hnodup.notMem (mem_append_left _ hmem)
    have hpos := length_pos_of_mem hone
    refine ⟨?_, ?_⟩
    · rw [hsplit, erase_append_right _ hbefore, erase_cons_head, append_assoc,
        ← append_assoc after, ← append_assoc before]
      exact (perm_append_singleton page _).nodup_iff.2 hnodup
    · rw [length_erase_of_mem hone, length_append, length_singleton]
      omega
  · exact h
  all_goals
    have hnew : page ∉ l.once ++ l.again := by simp [hone, hagain]
  · refine ⟨nodup_join h.nodup hnew (tail_sublist _) (Sublist.refl _), ?_⟩
    simp only [length_append, length_tail, length_singleton]
    have hframes : 0 < MAX_FRAMES := by decide
    omega
  · refine ⟨nodup_join h.nodup hnew (Sublist.refl _) (Sublist.refl _), ?_⟩
    simp only [length_append, length_singleton]
    omega
  · refine ⟨nodup_join h.nodup hnew (Sublist.refl _) (tail_sublist _), ?_⟩
    simp only [length_append, length_tail, length_singleton]
    omega

theorem mem_arcStep (l : Pages) (page : Int) :
    page ∈ (arcStep l page).once ++ (arcStep l page).again := by
  unfold arcStep
  split_ifs with hone hagain <;> simp_all

/-! ## The arrays hold the lists -/

/-- The first `size` elements of the array are `l`. -/
structure Holds (arr : CArray Int MAX_FRAMES) (size : Int) (l : List Int) : Prop where
  size_eq : size = l.length
  length_le : l.length ≤ MAX_FRAMES
  front_eq : arr.front l.length = l

namespace Arc

variable {arr : CArray Int MAX_FRAMES} {size : Int} {k : List Int}

theorem search_holds (h : Holds arr size k) (page : Int) :
    (page ∉ k ∧ search arr size page = some none) ∨
      ∃ before after, k = before ++ page :: after ∧ page ∉ before ∧
        search arr size page = some (some before.length) := by
  have hsize : size.toNat = k.length := by rw [h.size_eq, Int.toNat_natCast]
  rw [search, hsize]
  simpa using CArray.indexOf_spec page arr [] h.length_le h.front_eq

theorem contains_holds (h : Holds arr size k) :
    contains arr size page = some (decide (page ∈ k)) := by
  rw [contains]
  rcases search_holds h page with ⟨hnot, hsearch⟩ | ⟨before, after, rfl, -, hsearch⟩
  · simp [hsearch, hnot]
  · simp [hsearch]

theorem removeFirst_holds (h : Holds arr size (x :: k)) :
    ∃ arr' size', removeFirst arr size = some (arr', size') ∧ Holds arr' size' k := by
  have hsize : size - 1 = k.length := by
    rw [h.size_eq, length_cons]
    omega
  have hle := h.length_le
  rw [length_cons] at hle
  rcases CArray.exists_removeAt arr [] h.length_le h.front_eq with ⟨arr', hshift, hfront⟩
  refine ⟨arr', size - 1, ?_, hsize, by omega, hfront⟩
  rw [removeFirst, hsize, Int.toNat_natCast]
  rw [length_nil] at hshift
  rw [hshift]
  rfl

theorem addLast_holds (h : Holds arr size k) (page : Int) (hroom : k.length < MAX_FRAMES) :
    ∃ arr' size', addLast arr size page = some (arr', size') ∧ Holds arr' size' (k ++ [page]) := by
  have hsize : size.toNat = k.length := by rw [h.size_eq, Int.toNat_natCast]
  have hpos : 0 ≤ size := by
    rw [h.size_eq]
    omega
  have hlen : (k ++ [page]).length = k.length + 1 := by simp
  rcases arr.exists_push hroom page with ⟨arr', hset, hfront⟩
  refine ⟨arr', size + 1, ?_, ?_, by rw [hlen]; omega, ?_⟩
  · rw [addLast, if_pos hpos, hsize, hset]
    rfl
  · omega
  · rw [hlen, hfront, h.front_eq]

/-- The arrays of `arc` hold the pages `l`, and the ghost lists are empty. -/
structure Held (arc : Arc) (l : Pages) : Prop where
  once : Holds arc.T1 arc.t1Size l.once
  again : Holds arc.T2 arc.t2Size l.again
  b1Size_eq : arc.b1Size = 0
  b2Size_eq : arc.b2Size = 0
  fits : l.Fits

variable {arc : Arc}

theorem init_held : Held init ⟨[], []⟩ :=
  ⟨⟨rfl, by decide, rfl⟩, ⟨rfl, by decide, rfl⟩, rfl, rfl, ⟨by decide, by decide⟩⟩

section

variable (h : Held arc l)

include h

theorem Held.isHit (page : Int) : arc.isHit page = some (decide (page ∈ l.once ++ l.again)) := by
  rw [Arc.isHit, contains_holds h.once, contains_holds h.again]
  by_cases hone : page ∈ l.once
  · simp [hone]
  · simp [hone]

/-! ## One request -/

theorem Held.promote (hone : page ∈ l.once) :
    ∃ arc', arc.promote page = some arc' ∧ Held arc' ⟨l.once.erase page, l.again ++ [page]⟩ := by
  have hfits := h.fits.arcStep page
  rw [arcStep, if_pos hone] at hfits
  rcases search_holds h.once page with ⟨hnot, -⟩ | ⟨before, after, hsplit, hbefore, hsearch⟩
  · exact absurd hone hnot
  have hlen := hfits.length_le
  have herase : l.once.erase page = before ++ after := by
    rw [hsplit, erase_append_right _ hbefore, erase_cons_head]
  have hsize : (arc.t1Size - 1 - before.length).toNat = after.length := by
    rw [h.once.size_eq, hsplit, length_append, length_cons]
    omega
  have hholds := h.once
  rw [hsplit] at hholds
  rcases CArray.exists_removeAt arc.T1 before hholds.length_le hholds.front_eq
    with ⟨T1, hshift, hfront⟩
  rw [herase, length_append, length_append, length_singleton] at hlen
  rcases addLast_holds h.again page (by omega) with ⟨T2, t2Size, hadd, hagain⟩
  rw [herase] at hfits ⊢
  refine ⟨{ arc with T1 := T1, t1Size := arc.t1Size - 1, T2 := T2, t2Size := t2Size }, ?_,
    ⟨?_, ?_, hfront⟩, hagain, h.b1Size_eq, h.b2Size_eq, hfits⟩
  · simp only [Arc.promote, hsearch, bind_eq_bind, bind_some, hsize, hshift, hadd]
  · change arc.t1Size - 1 = _
    rw [hholds.size_eq, length_append, length_append, length_cons]
    omega
  · rw [length_append]
    omega

theorem Held.admitPage (hroom : l.once.length + l.again.length < MAX_FRAMES)
    (hfits : Pages.Fits ⟨l.once ++ [page], l.again⟩) :
    ∃ arc', arc.admitPage page = some arc' ∧ Held arc' ⟨l.once ++ [page], l.again⟩ := by
  have hsizes : arc.t1Size + arc.t2Size < MAX_FRAMES := by
    rw [h.once.size_eq, h.again.size_eq]
    omega
  rcases addLast_holds h.once page (by omega) with ⟨T1, t1Size, hadd, hholds⟩
  refine ⟨{ arc with T1 := T1, t1Size := t1Size }, ?_, hholds, h.again, h.b1Size_eq,
    h.b2Size_eq, hfits⟩
  simp [Arc.admitPage, if_pos hsizes, hadd]

theorem Held.admitPage_replaces {rest : List Int}
    (hagain : l.again = x :: rest) (hfull : l.once.length + l.again.length = MAX_FRAMES)
    (hroom : l.again.length < MAX_FRAMES) (hfits : Pages.Fits ⟨l.once ++ [page], rest⟩) :
    ∃ arc', arc.admitPage page = some arc' ∧ Held arc' ⟨l.once ++ [page], rest⟩ := by
  have hsizes : ¬arc.t1Size + arc.t2Size < MAX_FRAMES := by
    rw [h.once.size_eq, h.again.size_eq]
    omega
  have htwo : arc.t2Size < MAX_FRAMES := by
    rw [h.again.size_eq]
    omega
  have hrest := h.again
  rw [hagain] at hrest hfull
  rw [length_cons] at hfull
  rcases removeFirst_holds hrest with ⟨T2, t2Size, hremove, hholds2⟩
  rcases addLast_holds h.once page (by omega) with ⟨T1, t1Size, hadd, hholds1⟩
  refine ⟨{ arc with T1 := T1, t1Size := t1Size, T2 := T2, t2Size := t2Size }, ?_, hholds1, hholds2,
    h.b1Size_eq, h.b2Size_eq, hfits⟩
  simp [Arc.admitPage, if_neg hsizes, if_pos htwo, hremove, hadd]

/-- Only a full `T1` is trimmed, since `B1` stays empty. -/
theorem Held.trim_of_ne (hone : l.once.length ≠ MAX_FRAMES) : arc.trim = some arc := by
  rw [trim, if_neg]
  rw [h.once.size_eq, h.b1Size_eq]
  omega

theorem Held.trim_of_full {rest : List Int} (hone : l.once = x :: rest)
    (hfull : l.once.length = MAX_FRAMES) :
    ∃ arc', arc.trim = some arc' ∧ Held arc' ⟨rest, l.again⟩ := by
  have hsize : arc.t1Size = MAX_FRAMES := by rw [h.once.size_eq, hfull]
  have hsizes : arc.t1Size + arc.b1Size = MAX_FRAMES := by rw [h.b1Size_eq, Int.add_zero, hsize]
  have hrest := h.once
  have hfits := h.fits
  rw [hone] at hrest
  rcases removeFirst_holds hrest with ⟨T1, t1Size, hremove, hholds⟩
  refine ⟨{ arc with T1 := T1, t1Size := t1Size }, ?_, hholds, h.again, h.b1Size_eq,
    h.b2Size_eq, ?_, ?_⟩
  · simp [trim, if_pos hsizes, if_neg (not_lt.2 hsize.ge), hremove]
  · have hnodup := hfits.nodup
    rw [hone, cons_append, nodup_cons] at hnodup
    exact hnodup.2
  · have hlen := hfits.length_le
    rw [hone, length_cons] at hlen
    change rest.length + l.again.length ≤ MAX_FRAMES
    omega

theorem Held.miss (hone : page ∉ l.once) (hagain : page ∉ l.again)
    (hroom : l.again.length < MAX_FRAMES) :
    ∃ arc', (arc.trim.bind fun arc => arc.admitPage page) = some arc' ∧
      Held arc' (arcStep l page) := by
  have hfits := h.fits.arcStep page
  have hlen := h.fits.length_le
  rw [arcStep, if_neg hone, if_neg hagain] at hfits ⊢
  by_cases hfull : l.once.length = MAX_FRAMES
  · rw [if_pos hfull] at hfits ⊢
    obtain ⟨x, rest, hsplit⟩ := exists_cons_of_length_pos (l := l.once) (by rw [hfull]; decide)
    rcases h.trim_of_full hsplit hfull with ⟨arc1, htrim, h1⟩
    rw [htrim]
    rw [hsplit, tail_cons] at hfits ⊢
    rw [hsplit, length_cons] at hlen hfull
    exact h1.admitPage (by change rest.length + l.again.length < MAX_FRAMES; omega) hfits
  · rw [if_neg hfull] at hfits ⊢
    rw [h.trim_of_ne hfull, bind_some]
    by_cases hless : l.once.length + l.again.length < MAX_FRAMES
    · rw [if_pos hless] at hfits ⊢
      exact h.admitPage hless hfits
    · rw [if_neg hless] at hfits ⊢
      obtain ⟨x, rest, hsplit⟩ := exists_cons_of_length_pos (l := l.again) (by omega)
      have htail : l.again.tail = rest := by rw [hsplit, tail_cons]
      rw [htail] at hfits ⊢
      exact h.admitPage_replaces hsplit (by omega) hroom hfits

/-- With `T2` full a miss takes a page out of the empty `T1` and writes in front of the array. -/
theorem Held.miss_fails (hfull : l.again.length = MAX_FRAMES) :
    (arc.trim.bind fun arc => arc.admitPage page) = none := by
  have hlen := h.fits.length_le
  have hframes : 0 < MAX_FRAMES := by decide
  have hone : arc.t1Size = 0 := by
    rw [h.once.size_eq]
    omega
  have htwo : arc.t2Size = MAX_FRAMES := by rw [h.again.size_eq, hfull]
  have hremove : removeFirst arc.T1 0 = some (arc.T1, -1) := rfl
  have hadd : addLast arc.T1 (-1) page = none := rfl
  rw [h.trim_of_ne (by omega), bind_some, Arc.admitPage, hone, htwo,
    if_neg (by omega), if_neg (by omega), hremove]
  simp [hadd]

/-- The page has a frame or `T2` leaves room for it. -/
def room (arc : Arc) (page : Int) : Bool :=
  arc.isHit page == some true || decide (arc.t2Size < MAX_FRAMES)

theorem Held.room_iff : arc.room page = true ↔
    page ∈ l.once ++ l.again ∨ l.again.length < MAX_FRAMES := by
  rw [room, h.isHit, h.again.size_eq]
  simp

theorem Held.request_eq (page : Int) : arc.request page =
      if page ∈ l.once then { arc with hits := arc.hits + 1 }.promote page
      else if page ∈ l.again then some { arc with hits := arc.hits + 1 }
      else { arc with misses := arc.misses + 1 }.trim.bind fun arc => arc.admitPage page := by
  rw [Arc.request, h.isHit]
  by_cases hone : page ∈ l.once
  · simp [contains_holds h.once, hone]
  · by_cases hagain : page ∈ l.again
    · simp [contains_holds h.once, hone]
    · simp [hone, hagain]

theorem Held.count (hits misses : Int) : Held { arc with hits := hits, misses := misses } l :=
  ⟨h.once, h.again, h.b1Size_eq, h.b2Size_eq, h.fits⟩

theorem Held.request (hroom : arc.room page = true) :
    ∃ arc', arc.request page = some arc' ∧ Held arc' (arcStep l page) := by
  rw [h.request_eq]
  by_cases hone : page ∈ l.once
  · rw [if_pos hone, arcStep, if_pos hone]
    exact (h.count _ _).promote hone
  · by_cases hagain : page ∈ l.again
    · rw [if_neg hone, if_pos hagain, arcStep, if_neg hone, if_pos hagain]
      exact ⟨_, rfl, h.count _ _⟩
    · rw [if_neg hone, if_neg hagain]
      rcases h.room_iff.1 hroom with hmem | hless
      · exact absurd hmem (by simp [hone, hagain])
      · exact (h.count _ _).miss hone hagain hless

theorem Held.request_fails (hroom : ¬arc.room page = true) : arc.request page = none := by
  rw [h.room_iff, not_or, mem_append, not_or] at hroom
  have hlen := h.again.length_le
  rw [h.request_eq, if_neg hroom.1.1, if_neg hroom.1.2]
  exact (h.count _ _).miss_fails (by omega)

/-! ## Whole runs -/

def resident (arc : Arc) : List Int := arc.T1.front arc.t1Size.toNat ++
    arc.T2.front arc.t2Size.toNat

theorem Held.resident_eq : arc.resident = l.once ++ l.again := by
  rw [resident, h.once.size_eq, h.again.size_eq, Int.toNat_natCast, Int.toNat_natCast,
    h.once.front_eq, h.again.front_eq]

end

/-- After the requests `made` the arrays hold pages with the last one among them. -/
def Serves (arc : Arc) (made : List Int) : Prop :=
  ∃ l, Held arc l ∧ ∀ page ∈ made.getLast?, page ∈ l.once ++ l.again

theorem Serves.request {made : List Int} (h : Serves arc made) (hroom : arc.room page = true) :
    ∃ arc', arc.request page = some arc' ∧ Serves arc' (made ++ [page]) := by
  rcases h with ⟨l, h, -⟩
  rcases h.request hroom with ⟨arc', harc', h'⟩
  refine ⟨arc', harc', _, h', ?_⟩
  rw [getLast?_concat]
  rintro _ ⟨⟩
  exact mem_arcStep l page

end Arc

/-- A reference string is served without an access outside the arrays, with the sizes in their
bounds, the pages distinct and the last page in `T1` or `T2`, if and only if every miss comes while
`T2` is not full. -/
theorem arc_serves_iff (pages : List Int) :
    (∃ arc, simulateARC pages = some arc ∧ 0 ≤ arc.t1Size ∧ 0 ≤ arc.t2Size ∧ 0 ≤ arc.b1Size ∧
      0 ≤ arc.b2Size ∧ arc.t1Size + arc.t2Size ≤ MAX_FRAMES ∧ arc.resident.Nodup ∧
      ∀ page ∈ pages.getLast?, page ∈ arc.resident) ↔
        guarded Arc.request Arc.room Arc.init pages = true := by
  constructor
  · rintro ⟨arc, hrun, -⟩
    apply guarded_of_runCalls (P := fun arc => ∃ l, Arc.Held arc l) _ ⟨_, Arc.init_held⟩ hrun
    rintro arc page arc' ⟨l, h⟩ harc'
    by_cases hroom : arc.room page = true
    · rcases h.request hroom with ⟨arc'', harc'', h'⟩
      rw [harc'] at harc''
      cases harc''
      exact ⟨hroom, _, h'⟩
    · rw [h.request_fails hroom] at harc'
      cases harc'
  · intro hok
    rcases runCalls_guarded (R := Arc.Serves) (fun _ _ page _ h hroom => h.request hroom)
      ⟨_, Arc.init_held, by simp⟩ hok with ⟨arc, hrun, l, h, hlast⟩
    have hlen := h.fits.length_le
    refine ⟨arc, hrun, ?_, ?_, h.b1Size_eq.ge, h.b2Size_eq.ge, ?_, ?_, ?_⟩
    · rw [h.once.size_eq]
      omega
    · rw [h.again.size_eq]
      omega
    · rw [h.once.size_eq, h.again.size_eq]
      omega
    · rw [h.resident_eq]
      exact h.fits.nodup
    · rwa [h.resident_eq]

/-- The reference string of the program. -/
theorem arc_serves_demo : ∃ arc, simulateARC [1, 2, 3, 4, 1, 2, 5, 1, 2, 3, 4, 5] = some arc ∧
    arc.resident.Nodup := by
  rcases (arc_serves_iff [1, 2, 3, 4, 1, 2, 5, 1, 2, 3, 4, 5]).2 (by decide) with
    ⟨arc, hrun, -, -, -, -, -, hnodup, -⟩
  exact ⟨arc, hrun, hnodup⟩

/-- Three pages that are each requested twice fill `T2`; the next page is written to `T1[-1]`. -/
theorem full_again_list_fails :
    (∃ arc, simulateARC [1, 1, 2, 2, 3, 3] = some arc ∧ arc.t1Size = 0 ∧ arc.t2Size = MAX_FRAMES ∧
      Arc.removeFirst arc.T1 arc.t1Size = some (arc.T1, -1) ∧ Arc.addLast arc.T1 (-1) 4 = none) ∧
    simulateARC [1, 1, 2, 2, 3, 3, 4] = none := by
  have hsizes : (simulateARC [1, 1, 2, 2, 3, 3]).map (fun arc => (arc.t1Size, arc.t2Size)) =
      some (0, (MAX_FRAMES : Int)) := by decide
  rcases map_eq_some_iff.1 hsizes with ⟨arc, hrun, hpair⟩
  rw [Prod.mk.injEq] at hpair
  refine ⟨⟨arc, hrun, hpair.1, hpair.2, ?_, rfl⟩, ?_⟩
  · rw [hpair.1]
    rfl
  · have hnone : (simulateARC [1, 1, 2, 2, 3, 3, 4]).isNone = true := by decide
    exact isNone_iff_eq_none.1 hnone

end SystemsLab.PageSim
