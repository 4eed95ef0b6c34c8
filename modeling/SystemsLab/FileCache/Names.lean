import SystemsLab.FileCache.Accounting

/-!
# What reading does to the files, and when a file is the one with its name

Every entry copies its file, as far as a buffer goes.  Writing the entries back therefore cuts every
cached file to `BUFFER_SIZE - 1` bytes, and it changes nothing as long as only files that fit a
buffer were read.

A name is hashed whole, stored as its first 255 bytes and compared whole.  An entry for a longer
name is therefore never found, and it stands in the way of a file whose name is its beginning if
both names have the same bucket.
-/

namespace SystemsLab.FileCache

open CallSequence List Function KeyedList Option

/-- A read that brings a file into the cache finds one that fits a buffer and a name that fits an
entry. -/
def fits (disk : Disk) (cache : Cache) (r : Request) : Bool :=
  !loads disk cache r ||
    (r.filename.bytes.length < 256 && (disk r.filename).all fun content =>
      content.length < BUFFER_SIZE)

def callFits (disk : Disk) (cache : Cache) : ReadCall → Bool
  | .read r => fits disk cache r
  | .prefetch rs => guarded (prefetchFile disk) (fits disk) cache rs

variable {disk : Disk} {cache : Cache} {r : Request}

/-- What the cache holds for a file is the file. -/
structure Complete (disk : Disk) (cache : Cache) : Prop where
  sound : Sound cache
  whole : ∀ name, (cachedData cache name).or (disk name) = disk name

theorem readRequest_complete (h : Complete disk cache) (hfits : fits disk cache r) :
    ∃ cache', readRequest disk cache r = some cache' ∧ Complete disk cache' := by
  have hloads : loads disk cache r → r.filename.bytes.length < 256 ∧
      (disk r.filename).all fun content => content.length < BUFFER_SIZE := by
    intro hloads
    simpa [fits, hloads] using hfits
  rcases readRequest_data disk h.sound fun hl => (hloads hl).1 with ⟨cache', hread, hsound, hdata⟩
  refine ⟨cache', hread, hsound, fun name => ?_⟩
  rw [hdata, update_apply, loaded]
  split
  · rename_i hname
    subst hname
    split
    · rename_i hl
      have hshort := (hloads hl).2
      cases hdisk : disk r.filename with
      | none => simpa [cut, hdisk] using h.whole r.filename
      | some content =>
        rw [hdisk, all_some, decide_eq_true_eq] at hshort
        rw [cut, map_some, take_of_length_le (Nat.le_sub_one_of_lt hshort)]
        rfl
    · exact h.whole r.filename
  · exact h.whole name

theorem prefetchFile_complete (h : Complete disk cache) (hfits : fits disk cache r) :
    ∃ cache', prefetchFile disk cache r = some cache' ∧ Complete disk cache' := by
  rw [prefetchFile]
  split
  · exact ⟨cache, rfl, h⟩
  · exact readRequest_complete h hfits

theorem readCall_complete (h : Complete disk cache) {call : ReadCall}
    (hfits : callFits disk cache call) :
    ∃ cache', readCall disk cache call = some cache' ∧ Complete disk cache' := by
  cases call with
  | read r => exact readRequest_complete h hfits
  | prefetch rs =>
    exact runCalls_guarded (R := fun cache _ => Complete disk cache)
      (fun _ _ _ _ h hfits => prefetchFile_complete h hfits) h hfits

theorem runReads_complete {calls : List ReadCall}
    (hfits : guarded (readCall disk) (callFits disk) createFileCache calls) :
    ∃ cache, runReads disk calls = some cache ∧ Complete disk cache := by
  apply runCalls_guarded (R := fun cache _ => Complete disk cache) _ _ hfits
  · intro cache _ call _ h hfits
    exact readCall_complete h hfits
  · exact ⟨createFileCache_sound, fun _ => rfl⟩

/-- Reads of files that fit a buffer never change a file. -/
theorem reading_keeps_files (disk : Disk) (calls : List ReadCall)
    (hfits : guarded (readCall disk) (callFits disk) createFileCache calls) :
    ∃ cache, runReads disk calls = some cache ∧ flushAllCachedFiles cache disk = some disk ∧
      destroyFileCache cache disk = some disk := by
  rcases runReads_complete hfits with ⟨cache, hrun, hcomplete⟩
  refine ⟨cache, hrun, ?_, ?_⟩
  · rw [flushAllCachedFiles_data hcomplete.sound, funext hcomplete.whole]
  · rw [destroyFileCache_data hcomplete.sound, funext hcomplete.whole]

def shortFiles : Disk := fun name =>
  if name.bytes = [97] then some [104, 105] else if name.bytes = [98] then some [] else none

-- A hit, a missing file and a failing `open` are among the reads.
theorem reading_keeps_short_files :
    ∃ cache, runReads shortFiles [.read ⟨⟨[97], by decide⟩, 1, none⟩,
        .prefetch [⟨⟨[98], by decide⟩, 2, some .open⟩, ⟨⟨[99], by decide⟩, 2, none⟩,
          ⟨⟨[97], by decide⟩, 2, none⟩], .read ⟨⟨[98], by decide⟩, 3, none⟩] = some cache ∧
      flushAllCachedFiles cache shortFiles = some shortFiles ∧
        destroyFileCache cache shortFiles = some shortFiles :=
  reading_keeps_files shortFiles _ (by decide +kernel)

def longName : CString := ⟨List.replicate 255 97 ++ [100], by decide⟩

def storedName : CString := (CBuf.copy longName : CBuf 256).str

def longNamed : Disk := fun name =>
  if name = longName then some [120] else if name = storedName then some [121] else none

-- The bound on names is needed: the flush writes one file over the other.
example : longNamed storedName = some [121] ∧
    ((runReads longNamed [.read ⟨longName, 1, none⟩]).bind fun cache =>
      flushAllCachedFiles cache longNamed).map (fun disk => disk storedName) =
        some (some [120]) := by
  decide +kernel

/-- A file that does not fit a buffer is cut when the cache is flushed or destroyed. -/
theorem loaded_file_is_cut (h : Sound cache) (hloads : loads disk cache r)
    (hname : r.filename.bytes.length < 256) :
    ∃ cache' disk', readRequest disk cache r = some cache' ∧
      flushAllCachedFiles cache' disk = some disk' ∧ destroyFileCache cache' disk = some disk' ∧
      disk' r.filename = cut (disk r.filename) := by
  rcases readRequest_data disk h fun _ => hname with ⟨cache', hread, hsound, hdata⟩
  refine ⟨cache', _, hread, flushAllCachedFiles_data hsound disk, destroyFileCache_data hsound disk,
    ?_⟩
  have hsome : (disk r.filename).isSome := by
    simp only [loads, Bool.and_eq_true] at hloads
    exact hloads.2
  rcases isSome_iff_exists.1 hsome with ⟨content, hcontent⟩
  simp [hdata, loaded, hloads, hcontent, cut]

def fullBuffer : Disk := fun name =>
  if name.bytes = [97] then some (List.replicate BUFFER_SIZE 120) else none

/-- A file that fills the buffer is written back one byte shorter. -/
theorem long_file_loses_its_end :
    ∃ cache disk', runReads fullBuffer [.read ⟨⟨[97], by decide⟩, 1, none⟩] = some cache ∧
      flushAllCachedFiles cache fullBuffer = some disk' ∧
        destroyFileCache cache fullBuffer = some disk' ∧
      fullBuffer ⟨[97], by decide⟩ = some (List.replicate BUFFER_SIZE 120) ∧
      disk' ⟨[97], by decide⟩ = some (List.replicate (BUFFER_SIZE - 1) 120) := by
  have hloads : loads fullBuffer createFileCache ⟨⟨[97], by decide⟩, 1, none⟩ := by decide +kernel
  rcases loaded_file_is_cut createFileCache_sound hloads (by decide) with
    ⟨cache, disk', hread, hflush, hdestroy, hcut⟩
  refine ⟨cache, disk', ?_, hflush, hdestroy, rfl, hcut.trans ?_⟩
  · rw [runReads, runCalls, readCall, hread]
    rfl
  · rw [fullBuffer, if_pos rfl, cut, map_some, take_replicate]
    rfl

/-! ## Names -/

/-- The entries that are stored under a name in the bucket of that name. -/
def storedAs (cache : Cache) (name : CString) : Nat :=
  ((cache.files (hash name)).map nameOf).count name

/-- A read gets `data`, a write replaces it where it is, and a removal makes the file absent. -/
structure Identified (cache : Cache) (name : CString) (data : List UInt8) : Prop where
  read : ∀ disk now fault, ∃ cache' b,
    readFileCached disk cache name now fault = some (cache', some b) ∧
      Holds cache'.bufferPool b data
  write : ∀ data' now noMemory, data'.length < BUFFER_SIZE → ∃ cache' cached cached',
    writeFileCached cache name data' now noMemory = some (cache', 0) ∧
      findCached cache name = some cached ∧
      findCached cache' name = some cached' ∧ cached'.buffer = cached.buffer ∧
      Holds cache'.bufferPool cached'.buffer data' ∧
      cache'.bufferPool.freeCount = cache.bufferPool.freeCount
  remove : ∃ cache', removeCachedFile cache name = some cache' ∧ findCached cache' name = none

variable {cache' : Cache} {name : CString} {cached : CachedFile} {data : List UInt8} {now : Int}
  {noMemory : Bool}

theorem findCached_eq_none_iff : findCached cache name = none ↔ storedAs cache name = 0 := by
  rw [storedAs, count_eq_zero]
  exact lookup_eq_none_iff

theorem findCached_length_le (hfind : findCached cache name = some cached) :
    name.bytes.length ≤ 255 := by
  rw [← (findCached_mem hfind).2]
  exact Nat.le_of_lt_succ cached.filename.fits

theorem storedAs_pos (hfind : findCached cache name = some cached) : 0 < storedAs cache name := by
  by_contra hzero
  rw [findCached_eq_none_iff.2 (Nat.eq_zero_of_not_pos hzero)] at hfind
  cases hfind

/-- A write that returns 0 leaves an entry with its data, the only one of its name if there was at
most one.  An entry that was there before keeps its buffer. -/
theorem Accounted.write_ok (h : Accounted cache) (hname : name.bytes.length ≤ 255)
    (hwrite : writeFileCached cache name data now noMemory = some (cache', 0)) :
    ∃ cached', findCached cache' name = some cached' ∧ Holds cache'.bufferPool cached'.buffer data ∧
        storedAs cache' name = max 1 (storedAs cache name) ∧
      ∀ cached, findCached cache name = some cached → cached'.buffer = cached.buffer ∧
        cache'.bufferPool.freeCount = cache.bufferPool.freeCount := by
  rcases writeFileCached_access h name data now noMemory
    with ⟨cache1, code, d, hwrite1, haccess, hcode⟩
  rw [hwrite] at hwrite1
  cases hwrite1
  rcases hcode with ⟨-, -, rfl⟩ | ⟨hcode, -⟩
  · cases haccess with
    | @hit cached pool free f _ hfind hledger hsame hf hdata hholds =>
      have hnames : ∀ cached, nameOf (f cached) = nameOf cached := fun cached => (hf cached).1
      have hchanged := lookup_change_self (k := name) (l := cache.files (hash name)) hnames
      rw [lookup_of_findCached hfind] at hchanged
      refine ⟨f cached, ?_, (hf cached).2 ▸ hholds data rfl, ?_, fun old hold => ?_⟩
      · simp only [findCached, update_self]
        exact hchanged
      · rw [Nat.max_eq_right (storedAs_pos hfind)]
        simp [storedAs, map_change hnames]
      · rw [hfind] at hold
        cases hold
        rcases h.ledger with ⟨free0, hledger0⟩
        have hlen := hledger.length_add
        have hlen0 := hledger0.length_add
        refine ⟨(hf cached).2, ?_⟩
        rw [hledger.freeList.count, hledger0.freeList.count]
        omega
    | @added pool b _ now hmiss hheld hholds =>
      have hentry := nameOf_newEntry (Nat.lt_succ_of_le hname) b data.length now
      have hfiles : (addEntry { cache with bufferPool := pool } name b data.length now).files
          (hash name) = newEntry name b data.length now :: cache.files (hash name) := update_self ..
      have hnone : storedAs cache name = 0 := findCached_eq_none_iff.1 hmiss
      refine ⟨newEntry name b data.length now, ?_, hholds, ?_, fun old hold => ?_⟩
      · rw [findCached, hfiles]
        exact lookup_cons.trans (if_pos hentry)
      · rw [hnone, storedAs, hfiles, map_cons, hentry, count_cons_self, ← storedAs, hnone]
        rfl
      · rw [hmiss] at hold
        cases hold
  · cases hcode

theorem Accounted.remove_hit (h : Accounted cache) (hfind : findCached cache name = some cached) :
    ∃ cache', removeCachedFile cache name = some cache' ∧
      storedAs cache' name + 1 = storedAs cache name := by
  rcases removeCachedFile_effect h hfind with ⟨cache', rest, hremove, -, hfiles⟩
  rcases exists_split (lookup_of_findCached hfind) with ⟨before, after, hsplit, -, herase⟩
  refine ⟨cache', hremove, ?_⟩
  simp only [storedAs, hfiles, update_self]
  rw [herase, hsplit, map_append, map_append, map_cons, (findCached_mem hfind).2,
    count_append, count_append,
    count_cons_self, add_assoc]

theorem Accounted.identified (h : Accounted cache) (hfind : findCached cache name = some cached)
    (hholds : Holds cache.bufferPool cached.buffer data) (honce : storedAs cache name = 1) :
    Identified cache name data := by
  refine ⟨fun disk now fault => ?_, fun data' now noMemory hlen => ?_, ?_⟩
  · rw [readFileCached, hfind]
    exact ⟨_, cached.buffer, rfl, hholds⟩
  · rcases writeFileCached_access h name data' now noMemory with ⟨cache', code, d, hwrite, -, hcode⟩
    -- an entry is there, so the write cannot fail
    rcases hcode with ⟨rfl, -, -⟩ | ⟨-, -, hnone⟩
    · rcases h.write_ok (findCached_length_le hfind) hwrite with ⟨cached', hfind', hholds', -, hold⟩
      rcases hold cached hfind with ⟨hbuffer, hfree⟩
      exact ⟨cache', cached, cached', hwrite, hfind, hfind', hbuffer, hholds', hfree⟩
    · rw [hnone hlen] at hfind
      cases hfind
  · rcases h.remove_hit hfind with ⟨cache', hremove, hstored⟩
    exact ⟨cache', hremove, findCached_eq_none_iff.2 (by omega)⟩

theorem Identified.length_le (h : Identified cache name data) : name.bytes.length ≤ 255 := by
  rcases h.write [] 0 false (by decide) with ⟨-, cached, -, -, hfind, -⟩
  exact findCached_length_le hfind

theorem Identified.storedAs_le (h : Identified cache name data) (hcache : Accounted cache) :
    storedAs cache name ≤ 1 := by
  rcases h.write [] 0 false (by decide) with ⟨-, cached, -, -, hfind, -⟩
  rcases h.remove with ⟨cache', hremove, hnone⟩
  rcases hcache.remove_hit hfind with ⟨cache1, hremove1, hstored⟩
  rw [hremove] at hremove1
  cases hremove1
  have hzero := findCached_eq_none_iff.1 hnone
  omega

/-- Names that fit an entry are all different. -/
theorem Sound.storedAs_le (h : Sound cache) (name : CString) : storedAs cache name ≤ 1 := by
  have hbucket : (cache.files (hash name)).Sublist (entries cache) :=
    sublist_flatten_of_mem (mem_map_of_mem (mem_finRange (hash name)))
  exact nodup_iff_count_le_one.1 (h.names.sublist (hbucket.map nameOf)) name

/-- After a write that returned 0 the calls for that file work on its data if and only if the name
has at most 255 bytes and at most one entry was stored under it before.  The latter holds as long as
all names have at most 255 bytes. -/
theorem identified_iff (calls : List FileCall)
    (hrun : runCalls fileCall createFileCache calls = some cache)
    (hwrite : writeFileCached cache name data now noMemory = some (cache', 0)) :
    (Identified cache' name data ↔ name.bytes.length ≤ 255 ∧ storedAs cache name ≤ 1) ∧
      ((∀ call ∈ calls, call.namesFit) → storedAs cache name ≤ 1) := by
  have h := runCalls_accounted hrun
  have h' : Accounted cache' := by
    rcases writeFileCached_access h name data now noMemory
      with ⟨cache1, code, d, hwrite1, haccess, -⟩
    rw [hwrite] at hwrite1
    cases hwrite1
    exact haccess.accounted h
  refine ⟨⟨fun hidentified => ?_, ?_⟩, fun hfits => ?_⟩
  · have hname := hidentified.length_le
    rcases h.write_ok hname hwrite with ⟨-, -, -, hstored, -⟩
    have honce := hidentified.storedAs_le h'
    exact ⟨hname, by omega⟩
  · rintro ⟨hname, honce⟩
    rcases h.write_ok hname hwrite with ⟨cached, hfind, hholds, hstored, -⟩
    exact h'.identified hfind hholds (by omega)
  · rcases runCalls_sound calls hfits with ⟨cache1, hrun1, hsound⟩
    rw [hrun] at hrun1
    cases hrun1
    exact hsound.storedAs_le name

-- The second write of a file.
theorem identified_second_write :
    ∃ cache cache', runCalls fileCall createFileCache [.write nameA [104] 1 false] = some cache ∧
      writeFileCached cache nameA [105] 2 false = some (cache', 0) ∧
        Identified cache' nameA [105] := by
  have hcode : ((runCalls fileCall createFileCache [.write nameA [104] 1 false]).bind fun cache =>
      writeFileCached cache nameA [105] 2 false).map Prod.snd = some 0 := by decide +kernel
  rcases map_eq_some_iff.1 hcode with ⟨⟨cache', code⟩, hboth, rfl⟩
  rcases bind_eq_some_iff.1 hboth with ⟨cache, hrun, hwrite⟩
  have hiff := identified_iff _ hrun hwrite
  refine ⟨cache, cache', hrun, hwrite, hiff.1.2 ⟨by decide, hiff.2 fun call hcall => ?_⟩⟩
  rw [mem_singleton.1 hcall]
  exact Nat.le_of_ble_eq_true rfl

/-- A file with a name of 256 bytes is not found after it was written, and a second write takes
another buffer. -/
theorem long_name_is_not_found :
    (writeFileCached createFileCache longName [104] 1 false).map
        (fun w => (w.2, (readFileCached (fun _ => none) w.1 longName 2 none).map Prod.snd)) =
          some (0, some none) ∧
    (writeFileCached createFileCache longName [104] 1 false).bind (fun w =>
        (writeFileCached w.1 longName [105] 2 false).map fun w' =>
          (w'.2, w.1.bufferPool.freeCount, w'.1.bufferPool.freeCount)) = some (0, 9, 8) := by
  decide +kernel

end SystemsLab.FileCache
