import SystemsLab.FileCache.Writes

/-!
# Every buffer is free or belongs to an entry

Each path through the cache has to give back the buffers that it does not enter, and each entry that
leaves has to leave its buffer.  The victims of an eviction are the beginning of the entries sorted
by their times, so none of them is younger than an entry that stays.
-/

namespace SystemsLab.FileCache

open CallSequence KeyedList List Option BubbleSort

/-- All calls that work on a cache, with the disk as each of them finds it. -/
inductive FileCall where
  | read (disk : Disk) (r : Request)
  | prefetch (disk : Disk) (rs : List Request)
  | write (filename : CString) (data : List UInt8) (now : Int) (noMemory : Bool)
  | remove (filename : CString)
  | evict (maxFiles : Nat)
  | cleanup (now maxAge : Int)
  | flush (disk : Disk) (filename : CString)
  | flushAll (disk : Disk)

def fileCall (cache : Cache) : FileCall → Option Cache
  | .read disk r => readRequest disk cache r
  | .prefetch disk rs => prefetchFiles disk cache rs
  | .write filename data now noMemory =>
    (writeFileCached cache filename data now noMemory).map Prod.fst
  | .remove filename => removeCachedFile cache filename
  | .evict maxFiles => evictLruFiles cache maxFiles
  | .cleanup now maxAge => cleanupOldEntries cache now maxAge
  | .flush disk filename => (flushCachedFile cache disk filename).map fun _ => cache
  | .flushAll disk => (flushAllCachedFiles cache disk).map fun _ => cache

def FileCall.namesFit : FileCall → Prop
  | .read _ r => r.filename.bytes.length ≤ 255
  | .prefetch _ rs => ∀ r ∈ rs, r.filename.bytes.length ≤ 255
  | .write filename _ _ _ => filename.bytes.length ≤ 255
  | .remove filename => filename.bytes.length ≤ 255
  | .evict _ => True
  | .cleanup _ _ => True
  | .flush _ filename => filename.bytes.length ≤ 255
  | .flushAll _ => True

variable {cache cache' : Cache}

theorem readRequest_accounted (h : Accounted cache) (disk : Disk) (r : Request) :
    ∃ cache', readRequest disk cache r = some cache' ∧ Accounted cache' := by
  rcases readRequest_access h disk r with ⟨cache', hread, haccess⟩
  exact ⟨cache', hread, haccess.accounted h⟩

theorem prefetchFiles_accounted (h : Accounted cache) (disk : Disk) (rs : List Request) :
    ∃ cache', prefetchFiles disk cache rs = some cache' ∧ Accounted cache' := by
  apply runCalls_invariant _ h
  intro cache r h
  rw [prefetchFile]
  split
  · exact ⟨cache, rfl, h⟩
  · exact readRequest_accounted h disk r

theorem evictLruFiles_accounted (h : Accounted cache) {maxFiles : Int}
    (hevict : evictLruFiles cache maxFiles = some cache') : Accounted cache' := by
  rw [evictLruFiles] at hevict
  split at hevict
  · cases hevict
    exact h
  · split at hevict
    · cases hevict
    · refine runCalls_kept (fun cache victim cache' h hremove => ?_) h hevict
      -- a victim that is still there is removed by its name
      rw [removeVictim] at hremove
      split at hremove
      · rcases removeCachedFile_accounted h victim.filename.str with ⟨cache1, hcache1, h1⟩
        rw [hcache1] at hremove
        cases hremove
        exact h1
      · cases hremove

theorem cleanupAt_accounted (now maxAge : Int) (h : Accounted cache) (i : Fin CACHE_SIZE) :
    ∃ cache', cleanupAt now maxAge cache i = some cache' ∧ Accounted cache' := by
  rcases cleanupAt_effect h now maxAge i with ⟨cache', kept, hrun, heffect, -⟩
  exact ⟨cache', hrun, heffect.accounted⟩

theorem fileCall_accounted (h : Accounted cache) {call : FileCall}
    (hcall : fileCall cache call = some cache') : Accounted cache' := by
  have hkept : ∀ {result : Option Cache}, (∃ c, result = some c ∧ Accounted c) →
      result = some cache' → Accounted cache' := by
    rintro result ⟨c, rfl, hc⟩ heq
    cases heq
    exact hc
  cases call with
  | read disk r => exact hkept (readRequest_accounted h disk r) hcall
  | prefetch disk rs => exact hkept (prefetchFiles_accounted h disk rs) hcall
  | write filename data now noMemory =>
    rcases writeFileCached_access h filename data now noMemory
      with ⟨cache1, code, d, hwrite, haccess, -⟩
    exact hkept ⟨cache1, by rw [fileCall, hwrite, map_some], haccess.accounted h⟩ hcall
  | remove filename => exact hkept (removeCachedFile_accounted h filename) hcall
  | evict maxFiles => exact evictLruFiles_accounted h hcall
  | cleanup now maxAge =>
    exact hkept (runCalls_invariant (fun _ i h => cleanupAt_accounted now maxAge h i) h _) hcall
  | flush disk filename =>
    rcases map_eq_some_iff.1 hcall with ⟨-, -, rfl⟩
    exact h
  | flushAll disk =>
    rcases map_eq_some_iff.1 hcall with ⟨-, -, rfl⟩
    exact h

theorem runCalls_accounted {calls : List FileCall}
    (hrun : runCalls fileCall createFileCache calls = some cache) : Accounted cache :=
  runCalls_kept (fun _ _ _ h hcall => fileCall_accounted h hcall) createFileCache_sound.toAccounted
    hrun

theorem prefetchFiles_sound (h : Sound cache) (disk : Disk) {rs : List Request}
    (hfits : ∀ r ∈ rs, r.filename.bytes.length ≤ 255) :
    ∃ cache', prefetchFiles disk cache rs = some cache' ∧ Sound cache' := by
  induction rs generalizing cache with
  | nil => exact ⟨cache, rfl, h⟩
  | cons r rs ih =>
    have hfirst : ∃ cache1, prefetchFile disk cache r = some cache1 ∧ Sound cache1 := by
      rw [prefetchFile]
      split
      · exact ⟨cache, rfl, h⟩
      · rcases readRequest_data disk h fun _ => Nat.lt_succ_of_le (hfits r mem_cons_self)
          with ⟨cache1, hread, h1, -⟩
        exact ⟨cache1, hread, h1⟩
    rcases hfirst with ⟨cache1, hcache1, h1⟩
    rcases ih h1 fun r' hr' => hfits r' (mem_cons_of_mem _ hr') with ⟨cache2, hcache2, h2⟩
    rw [prefetchFiles] at hcache2 ⊢
    exact ⟨cache2, by rw [runCalls, hcache1, bind_some, hcache2], h2⟩

theorem removeCachedFile_sound (h : Sound cache) (filename : CString) :
    ∃ cache', removeCachedFile cache filename = some cache' ∧ Sound cache' := by
  cases hfind : findCached cache filename with
  | none => exact ⟨cache, by rw [removeCachedFile, hfind], h⟩
  | some cached =>
    rcases findCached_mem hfind with ⟨hmem, rfl⟩
    rcases removeCachedFile_data h hmem with ⟨cache', hremove, h', -⟩
    exact ⟨cache', hremove, h'⟩

theorem fileCall_sound (h : Sound cache) {call : FileCall} (hfits : call.namesFit) :
    ∃ cache', fileCall cache call = some cache' ∧ Sound cache' := by
  cases call with
  | read disk r =>
    rcases readRequest_data disk h fun _ => Nat.lt_succ_of_le hfits with ⟨cache', hread, h', -⟩
    exact ⟨cache', hread, h'⟩
  | prefetch disk rs => exact prefetchFiles_sound h disk hfits
  | write filename data now noMemory =>
    rcases writeFileCached_data h data now noMemory (Nat.lt_succ_of_le hfits)
      with ⟨cache', code, hwrite, heffect⟩
    exact ⟨cache', by rw [fileCall, hwrite, map_some], heffect.sound⟩
  | remove filename => exact removeCachedFile_sound h filename
  | evict maxFiles =>
    rcases evictLruFiles_data h maxFiles with ⟨cache', hevict, h', -⟩
    exact ⟨cache', hevict, h'⟩
  | cleanup now maxAge =>
    rcases cleanupOldEntries_data h now maxAge with ⟨cache', hcleanup, h', -⟩
    exact ⟨cache', hcleanup, h'⟩
  | flush disk filename =>
    rcases flushCachedFile_data h disk filename with ⟨code, hflush⟩
    exact ⟨cache, by rw [fileCall, hflush, map_some], h⟩
  | flushAll disk => exact ⟨cache, by rw [fileCall, flushAllCachedFiles_data h, map_some], h⟩

theorem runCalls_sound (calls : List FileCall) (hfits : ∀ call ∈ calls, call.namesFit) :
    ∃ cache, runCalls fileCall createFileCache calls = some cache ∧ Sound cache := by
  rcases runCalls_guarded (R := fun cache _ => Sound cache)
    (fun cache _ call hcall h _ => fileCall_sound h (hfits call hcall)) createFileCache_sound
    (guarded_true ..) with ⟨cache, hrun, h⟩
  exact ⟨cache, hrun, h⟩

/-- Where the buffers of a cache are. -/
structure BufferAccounts (cache : Cache) : Prop where
  count : cache.cachedFilesCount = (entries cache).length
  placed : ∀ i, ∀ cached ∈ cache.files i, hash (nameOf cached) = i
  names : ((entries cache).map nameOf).Nodup
  distinct : (buffersInUse cache).Nodup
  inUse : ∀ b, b ∈ buffersInUse cache ↔
    ∃ n, cache.bufferPool.buffers[b]? = some n ∧ n.isFree = false
  free : ∃ free, FreeList cache.bufferPool free ∧ free.length + cache.cachedFilesCount = POOL_SIZE
  freeCount : cache.bufferPool.freeCount = POOL_SIZE - cache.cachedFilesCount

theorem Sound.bufferAccounts (h : Sound cache) : BufferAccounts cache := by
  rcases h.ledger with ⟨free, hledger⟩
  have hlen := hledger.length_add
  rw [buffersInUse, length_map, ← h.count] at hlen
  refine ⟨h.count, h.placed, h.names, (nodup_append'.1 hledger.nodup).2.1,
    fun b => ⟨hledger.exists_used, ?_⟩,
    ⟨free, hledger.freeList, hlen⟩, ?_⟩
  · rintro ⟨n, hn, hused⟩
    exact hledger.mem_used hn hused
  · rw [hledger.freeList.count]
    omega

/-- With names that fit an entry no call fails, and every buffer is on the free list or belongs to
one entry, which is in the bucket of its name. -/
theorem buffers_accounted (calls : List FileCall) (hfits : ∀ call ∈ calls, call.namesFit) :
    ∃ cache, runCalls fileCall createFileCache calls = some cache ∧ BufferAccounts cache := by
  rcases runCalls_sound calls hfits with ⟨cache, hrun, hsound⟩
  exact ⟨cache, hrun, hsound.bufferAccounts⟩

-- A read that fails after the buffer was acquired, a write, a hit, a removal and an eviction.
theorem buffers_accounted_demo : ∃ cache, runCalls fileCall createFileCache
        [.read (fun _ => some [1]) ⟨nameA, 1, some .malloc⟩, .write nameA [104] 2 false,
          .prefetch (fun _ => some [1]) [⟨nameA, 3, none⟩], .flushAll (fun _ => none),
            .remove nameA,
          .evict 0, .cleanup 9 5] = some cache ∧ BufferAccounts cache := by
  apply buffers_accounted
  intro call hcall
  simp only [mem_cons, not_mem_nil, or_false] at hcall
  rcases hcall with rfl | rfl | rfl | rfl | rfl | rfl | rfl
  all_goals simp [FileCall.namesFit, nameA]

/-! ## Eviction -/

variable {removed : List CachedFile}

theorem victims_older {maxFiles : Int}
    (h : (entries cache).Perm (victims cache maxFiles ++ entries cache'))
    {kept gone : CachedFile} (hkept : kept ∈ entries cache')
    (hgone : gone ∈ victims cache maxFiles) :
    gone.lastAccessed ≤ kept.lastAccessed := by
  have hsplit := take_append_drop (cache.cachedFilesCount - maxFiles : Int).toNat
    (bubbleSort CachedFile.lastAccessed (entries cache))
  have hsorted := bubbleSort_sorted CachedFile.lastAccessed (entries cache)
  rw [← hsplit] at hsorted
  have hrest :=
    (perm_append_left_iff _).1 ((List.Perm.of_eq hsplit).trans ((bubbleSort_perm _ _).trans h))
  exact (pairwise_append.1 hsorted).2.2 gone hgone kept (hrest.mem_iff.2 hkept)

/-- What has no entry any more has its buffer on the free list. -/
theorem Sound.removed_free (h : Sound cache) (h' : Sound cache')
    (hperm : (entries cache).Perm (removed ++ entries cache')) :
    ∃ free, FreeList cache'.bufferPool free ∧ ∀ gone ∈ removed, gone.buffer ∈ free := by
  rcases h.ledger with ⟨free, hledger⟩
  rcases h'.ledger with ⟨free', hledger'⟩
  refine ⟨free', hledger'.freeList, fun gone hgone => ?_⟩
  have hmem : gone.buffer ∈ buffersInUse cache :=
    mem_map_of_mem (hperm.mem_iff.2 (mem_append_left _ hgone))
  have hpool := hledger'.all.mem_iff.2 (mem_range.2 (hledger.lt (mem_append_right _ hmem)))
  refine (mem_append.1 hpool).resolve_right fun hused => ?_
  -- the entries have different buffers
  have hnodup := (hperm.map CachedFile.buffer).nodup_iff.1 (nodup_append'.1 hledger.nodup).2.1
  rw [map_append, nodup_append'] at hnodup
  exact hnodup.2.2 (mem_map_of_mem hgone) hused

/-- In every state that is reached with names that fit, an eviction keeps as many entries as it is
told to, with their data, and drops none that was accessed later than one of them. -/
theorem eviction_drops_least_recent (calls : List FileCall) (hfits : ∀ call ∈ calls, call.namesFit)
    (maxFiles : Nat) :
    ∃ cache cache' removed, runCalls fileCall createFileCache calls = some cache ∧
      evictLruFiles cache maxFiles = some cache' ∧
        (entries cache).Perm (removed ++ entries cache') ∧
      (entries cache').length = min cache.cachedFilesCount maxFiles ∧
      cache'.cachedFilesCount = min cache.cachedFilesCount maxFiles ∧
      (∀ kept ∈ entries cache', ∀ gone ∈ removed, gone.lastAccessed ≤ kept.lastAccessed) ∧
      (∀ kept ∈ entries cache', entryData cache'.bufferPool kept =
        entryData cache.bufferPool kept) ∧
      ∃ free, FreeList cache'.bufferPool free ∧ ∀ gone ∈ removed, gone.buffer ∈ free := by
  rcases runCalls_sound calls hfits with ⟨cache, hrun, h⟩
  rcases evictLruFiles_data h maxFiles with ⟨cache', hevict, h', hdata, hperm⟩
  have hlen : (entries cache').length = min cache.cachedFilesCount maxFiles := by
    have hall := hperm.length_eq
    have hsort := (bubbleSort_perm CachedFile.lastAccessed (entries cache)).length_eq
    rw [length_append, victims, length_take, hsort, h.count] at hall
    rw [h.count]
    omega
  refine ⟨cache, cache', victims cache maxFiles, hrun, hevict, hperm, hlen, h'.count.trans hlen,
    fun kept hkept gone hgone => victims_older hperm hkept hgone, fun kept hkept => ?_,
      h.removed_free h' hperm⟩
  -- the name of an entry that stays is not that of a victim
  have hnames := (hperm.map nameOf).nodup_iff.1 h.names
  rw [map_append, nodup_append'] at hnames
  rw [h'.entry_data hkept, hdata, without, if_neg fun hgone =>
    hnames.2.2 hgone (mem_map_of_mem hkept)]
  exact (h.entry_data (hperm.mem_iff.2 (mem_append_right _ hkept))).symm

def threeFiles : List FileCall :=
  [.write nameA [104] 1 false, .write ⟨[98], by decide⟩ [105] 2 false,
    .write ⟨[99], by decide⟩ [106] 3 false,
    .read (fun _ => none) ⟨nameA, 4, none⟩]

-- Two of three files stay; the one that was written first has been read since.
theorem eviction_drops_least_recent_demo :
    ∃ cache cache', runCalls fileCall createFileCache threeFiles = some cache ∧
      evictLruFiles cache 2 = some cache' ∧
        (entries cache').length = min cache.cachedFilesCount 2 := by
  have hfits : ∀ call ∈ threeFiles, call.namesFit := by
    intro call hcall
    simp only [threeFiles, mem_cons, not_mem_nil, or_false] at hcall
    rcases hcall with rfl | rfl | rfl | rfl
    all_goals simp [FileCall.namesFit, nameA]
  rcases eviction_drops_least_recent threeFiles hfits 2
    with ⟨cache, cache', -, hrun, hevict, -, hlen, -⟩
  exact ⟨cache, cache', hrun, hevict, hlen⟩

end SystemsLab.FileCache
