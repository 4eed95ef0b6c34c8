import SystemsLab.FileCache.Ledger

/-!
# The cache as a map from names to data

`Accounted cache` says that the buffers in use are those of the entries, and `Sound cache` adds that
every entry is in the bucket of its name, one for a name.  `cachedData cache name` is then the data
of the cache for a file.

* `Effect cache cache' gone new kept` — the entries `gone` leave, the entries `new` come, and the
  others keep their data;
* `Access cache filename d cache'` — what a read or a write of a file does, for names of any length;
  `d` is the data that comes into the cache.
-/

namespace SystemsLab.FileCache

open CallSequence BubbleSort Buckets KeyedList List Function Option

def entryData (pool : BufferPool) (cached : CachedFile) : Option (List UInt8) :=
  (pool.buffers[cached.buffer]?).map fun n => n.data.front cached.fileSize

def cachedData (cache : Cache) (name : CString) : Option (List UInt8) :=
  (findCached cache name).bind (entryData cache.bufferPool)

def buffersInUse (cache : Cache) : List Nat := (entries cache).map CachedFile.buffer

structure Accounted (cache : Cache) : Prop where
  ledger : ∃ free, Ledger cache.bufferPool free (buffersInUse cache)
  count : cache.cachedFilesCount = (entries cache).length

structure Sound (cache : Cache) : Prop extends Accounted cache where
  placed : ∀ i, ∀ cached ∈ cache.files i, hash (nameOf cached) = i
  names : ((entries cache).map nameOf).Nodup

def cut (content : Option (List UInt8)) : Option (List UInt8) :=
  content.map (List.take (BUFFER_SIZE - 1))

/-- A read that brings its file into the cache. -/
def loads (disk : Disk) (cache : Cache) (r : Request) : Bool :=
  (findCached cache r.filename).isNone &&
    cache.bufferPool.freeCount ≠ 0 && r.fault.isNone && (disk r.filename).isSome

def without (v : CString → Option (List UInt8)) (names : List CString) (name : CString) :
    Option (List UInt8) :=
  if name ∈ names then none else v name

variable {cache cache' : Cache} {pool pool' : BufferPool} {free : List Nat}
  {gone new kept : List CachedFile}
  {cached : CachedFile} {name filename : CString} {b : Nat} {data : List UInt8}
  {d : Option (List UInt8)} {i : Fin CACHE_SIZE} {bucket : List CachedFile}

/-! ## Finding entries -/

theorem entryData_congr (h : pool'.buffers[cached.buffer]? = pool.buffers[cached.buffer]?) :
    entryData pool' cached = entryData pool cached := by
  rw [entryData, entryData, h]

theorem Holds.entryData (h : Holds pool b data) (hbuffer : cached.buffer = b)
    (hsize : cached.fileSize = data.length) : entryData pool cached = some data := by
  rcases h with ⟨n, hn, hdata, -⟩
  rw [FileCache.entryData, hbuffer, hn, hsize, map_some, hdata]

theorem mem_entries : cached ∈ entries cache ↔ ∃ i, cached ∈ cache.files i := mem_contents

theorem lookup_of_findCached (h : findCached cache name = some cached) :
    lookup nameOf name (cache.files (hash name)) = some cached :=
  h

theorem findCached_mem (h : findCached cache name = some cached) :
    cached ∈ entries cache ∧ nameOf cached = name := by
  rcases mem_of_lookup (lookup_of_findCached h) with ⟨hbucket, hname⟩
  exact ⟨mem_entries.2 ⟨_, hbucket⟩, hname⟩

theorem Sound.find (h : Sound cache) (hmem : cached ∈ entries cache) :
    findCached cache (nameOf cached) = some cached := by
  rcases mem_entries.1 hmem with ⟨i, hi⟩
  rw [← h.placed i cached hi] at hi
  have hname : nameOf cached ∈ (cache.files (hash (nameOf cached))).map nameOf := mem_map_of_mem hi
  rcases exists_lookup hname with ⟨found, hfind⟩
  rcases findCached_mem hfind with ⟨hfound, heq⟩
  rwa [inj_on_of_nodup_map h.names hfound hmem heq] at hfind

theorem Sound.entry_data (h : Sound cache) (hmem : cached ∈ entries cache) :
    entryData cache.bufferPool cached = cachedData cache (nameOf cached) := by
  rw [cachedData, h.find hmem, bind_some]

theorem cachedData_eq_none (hname : name ∉ (entries cache).map nameOf) :
    cachedData cache name = none := by
  cases hfind : findCached cache name with
  | none => rw [cachedData, hfind, bind_none]
  | some cached => exact absurd (mem_map.2 ⟨cached, findCached_mem hfind⟩) hname

theorem Sound.notMem_names (h : Sound cache) (hfind : findCached cache name = none) :
    name ∉ (entries cache).map nameOf := by
  intro hmem
  rcases mem_map.1 hmem with ⟨cached, hcached, rfl⟩
  rw [h.find hcached] at hfind
  cases hfind

theorem Sound.placed_update (h : Sound cache)
    (hbucket : ∀ cached ∈ bucket, hash (nameOf cached) = i) :
    ∀ j, ∀ cached ∈ update cache.files i bucket j, hash (nameOf cached) = j := by
  intro j cached hcached
  rw [update_apply] at hcached
  split_ifs at hcached with hj
  · rw [hj]
    exact hbucket cached hcached
  · exact h.placed j cached hcached

theorem createFileCache_sound : Sound createFileCache :=
  ⟨⟨⟨_, createBufferPool_ledger⟩, rfl⟩, nofun, nodup_nil⟩

theorem entries_split (h : findCached cache filename = some cached) :
    ∃ rest, (entries cache).Perm (cached :: rest) ∧
      (∀ f, (contents (update cache.files (hash filename)
        (change nameOf filename f (cache.files (hash filename))))).Perm (f cached :: rest)) ∧
      (contents (update cache.files (hash filename)
        ((cache.files (hash filename)).eraseP fun cached => nameOf cached = filename))).Perm
          rest := by
  rcases exists_split (lookup_of_findCached h) with ⟨before, after, hsplit, hchange, herase⟩
  rcases exists_rest cache.files (hash filename) with ⟨others, hothers⟩
  refine ⟨before ++ after ++ others, ?_, fun f => ?_, ?_⟩
  · apply (contents_perm hothers).trans
    rw [hsplit]
    exact perm_middle.append_right others
  · apply (hothers _).trans
    rw [hchange]
    exact perm_middle.append_right others
  · apply (hothers _).trans
    rw [herase]

/-! ## What a call does to the entries -/

structure Effect (cache cache' : Cache) (gone new kept : List CachedFile) : Prop where
  before : (entries cache).Perm (gone ++ kept)
  after : (entries cache').Perm (new ++ kept)
  ledger : ∃ free, Ledger cache'.bufferPool free ((new ++ kept).map CachedFile.buffer)
  count : cache'.cachedFilesCount = (new ++ kept).length
  same : ∀ cached ∈ kept, entryData cache'.bufferPool cached = entryData cache.bufferPool cached

theorem Effect.accounted (h : Effect cache cache' gone new kept) : Accounted cache' := by
  rcases h.ledger with ⟨free, hledger⟩
  exact ⟨⟨free, hledger.perm (h.after.map _).symm⟩, h.count.trans h.after.length_eq.symm⟩

theorem Effect.sound (h : Effect cache cache' gone new kept) (hsound : Sound cache)
    (hplaced : ∀ i, ∀ cached ∈ cache'.files i, hash (nameOf cached) = i)
    (hnames : ((new ++ kept).map nameOf).Nodup) {v : CString → Option (List UInt8)}
    (hnew : ∀ cached ∈ new, entryData cache'.bufferPool cached = v (nameOf cached))
    (hkept : ∀ cached ∈ kept, cachedData cache (nameOf cached) = v (nameOf cached))
    (hout : ∀ name, name ∉ (new ++ kept).map nameOf → v name = none) :
    Sound cache' ∧ cachedData cache' = v := by
  have hsound' : Sound cache' := ⟨h.accounted, hplaced, (h.after.map _).nodup_iff.2 hnames⟩
  refine ⟨hsound', funext fun name => ?_⟩
  by_cases hname : name ∈ (entries cache').map nameOf
  · rcases mem_map.1 hname with ⟨cached, hcached, rfl⟩
    rw [← hsound'.entry_data hcached]
    rcases mem_append.1 (h.after.mem_iff.1 hcached) with hmem | hmem
    · exact hnew cached hmem
    · rw [h.same cached hmem, hsound.entry_data (h.before.mem_iff.2 (mem_append_right _ hmem)),
        hkept cached hmem]
  · rw [cachedData_eq_none hname, hout name fun hmem => hname ((h.after.map _).mem_iff.2 hmem)]

theorem Effect.sound_drop (h : Effect cache cache' gone [] kept) (hsound : Sound cache)
    (hplaced : ∀ i, ∀ cached ∈ cache'.files i, hash (nameOf cached) = i) :
    Sound cache' ∧ cachedData cache' = without (cachedData cache) (gone.map nameOf) := by
  have hnames := (h.before.map nameOf).nodup_iff.1 hsound.names
  rw [map_append, nodup_append'] at hnames
  rcases hnames with ⟨-, hnames, hdisjoint⟩
  refine h.sound hsound hplaced hnames nofun (fun cached hcached => ?_) ?_
  · exact (if_neg fun hgone => hdisjoint hgone (mem_map_of_mem hcached)).symm
  · intro name hname
    rw [without]
    split_ifs with hnotGone
    · rfl
    · apply cachedData_eq_none
      rw [(h.before.map nameOf).mem_iff, map_append, mem_append, not_or]
      exact ⟨hnotGone, hname⟩

/-- An entry comes for a file that had none, or in the place of the one it had. -/
theorem Effect.sound_put (h : Effect cache cache' gone [cached] kept) (hsound : Sound cache)
    (hplaced : ∀ i, ∀ cached ∈ cache'.files i, hash (nameOf cached) = i)
    (hgone : ∀ old ∈ gone, nameOf old = nameOf cached) (hnew : nameOf cached ∉ kept.map nameOf) :
    Sound cache' ∧ cachedData cache' = update (cachedData cache) (nameOf cached)
        (entryData cache'.bufferPool cached) := by
  have hnames := (h.before.map nameOf).nodup_iff.1 hsound.names
  rw [map_append, nodup_append'] at hnames
  refine h.sound hsound hplaced (nodup_cons.2 ⟨hnew, hnames.2.1⟩) ?_ (fun other hother => ?_) ?_
  · intro other hother
    rw [mem_singleton.1 hother, update_self]
  · rw [update_of_ne fun heq => hnew (mem_map.2 ⟨other, hother, heq⟩)]
  · intro name hout
    rw [singleton_append, map_cons, mem_cons, not_or] at hout
    rw [update_of_ne hout.1]
    apply cachedData_eq_none
    rw [(h.before.map nameOf).mem_iff, map_append, mem_append, not_or]
    refine ⟨fun hmem => ?_, hout.2⟩
    rcases mem_map.1 hmem with ⟨old, hold, rfl⟩
    exact hout.1 (hgone old hold)

/-! ## Reads and writes -/

/-- A buffer was acquired and is not entered yet. -/
structure Holding (cache : Cache) (pool : BufferPool) (b : Nat) : Prop where
  ledger : ∃ free, Ledger pool free (b :: buffersInUse cache)
  same : AgreeOn (buffersInUse cache) cache.bufferPool pool

def newEntry (filename : CString) (b size : Nat) (now : Int) : CachedFile :=
  ⟨CBuf.copy filename, b, size, now⟩

/-- What a read or a write of `filename` can do. -/
inductive Access (cache : Cache) (filename : CString) : Option (List UInt8) → Cache → Prop
  | failed {pool : BufferPool} {free : List Nat} (hledger : Ledger pool free (buffersInUse cache))
      (hsame : AgreeOn (buffersInUse cache) cache.bufferPool pool) :
      Access cache filename none { cache with bufferPool := pool }
  | hit {cached : CachedFile} {pool : BufferPool} {free : List Nat} {f : CachedFile → CachedFile}
      {d : Option (List UInt8)} (hfind : findCached cache filename = some cached)
      (hledger : Ledger pool free (buffersInUse cache))
      (hsame : ∀ b ∈ buffersInUse cache, b ≠ cached.buffer →
        pool.buffers[b]? = cache.bufferPool.buffers[b]?)
      (hf : ∀ cached, nameOf (f cached) = nameOf cached ∧ (f cached).buffer = cached.buffer)
      (hdata : entryData pool (f cached) = d.or (entryData cache.bufferPool cached))
      (hholds : ∀ data ∈ d, Holds pool cached.buffer data) :
      Access cache filename d { cache with
        bufferPool := pool
        files := update cache.files (hash filename)
          (change nameOf filename f (cache.files (hash filename))) }
  | added {pool : BufferPool} {b : Nat} {data : List UInt8} (now : Int)
      (hmiss : findCached cache filename = none) (hheld : Holding cache pool b)
      (hholds : Holds pool b data) :
      Access cache filename (some data)
        (addEntry { cache with bufferPool := pool } filename b data.length now)

theorem Accounted.acquire (h : Accounted cache) : (cache.bufferPool.freeCount = 0 ∧
      acquireBuffer cache.bufferPool = some (cache.bufferPool, none)) ∨
      ∃ b pool, cache.bufferPool.freeCount ≠ 0 ∧
        acquireBuffer cache.bufferPool = some (pool, some b) ∧
        Holding cache pool b := by
  rcases h.ledger with ⟨free, hledger⟩
  rcases hledger.acquire with hnone | ⟨b, free', pool, hcount, hacquire, hledger', hsame⟩
  · exact .inl hnone
  · exact .inr ⟨b, pool, hcount, hacquire, ⟨free', hledger'⟩, hsame⟩

theorem Holding.fill (h : Holding cache pool b) (hlen : data.length < BUFFER_SIZE) :
    ∃ pool', fillBuffer pool b data = some pool' ∧ Holding cache pool' b ∧ Holds pool' b data := by
  rcases h.ledger with ⟨free, hledger⟩
  rcases hledger.fill hlen with ⟨pool', hfill, hledger', hholds, hsame⟩
  exact ⟨pool', hfill, ⟨⟨free, hledger'⟩, fun c hc => (hsame c hc).trans (h.same c hc)⟩, hholds⟩

theorem Holding.giveBack (h : Holding cache pool b) :
    ∃ cache', giveBack { cache with bufferPool := pool } b = some (cache', none) ∧
      Access cache filename none cache' := by
  rcases h.ledger with ⟨free, hledger⟩
  rcases hledger.release with ⟨pool', hrelease, hledger', hsame⟩
  refine ⟨{ cache with bufferPool := pool' }, ?_, .failed hledger' fun c hc =>
    (hsame c hc).trans (h.same c hc)⟩
  simp [FileCache.giveBack, hrelease]

theorem nameOf_newEntry (h : filename.bytes.length < 256) (b size : Nat) (now : Int) :
    nameOf (newEntry filename b size now) = filename :=
  CBuf.str_copy h

theorem Access.failed_effect (hcount : cache.cachedFilesCount = (entries cache).length)
    (hledger : Ledger pool free (buffersInUse cache))
    (hsame : AgreeOn (buffersInUse cache) cache.bufferPool pool) :
    Effect cache { cache with bufferPool := pool } [] [] (entries cache) :=
  ⟨.refl _, .refl _, ⟨free, hledger⟩, hcount,
    fun _ hcached => entryData_congr (hsame _ (mem_map_of_mem hcached))⟩

theorem Access.hit_effect (hcount : cache.cachedFilesCount = (entries cache).length)
    {f : CachedFile → CachedFile} (hfind : findCached cache filename = some cached)
    (hledger : Ledger pool free (buffersInUse cache))
    (hsame : ∀ b ∈ buffersInUse cache, b ≠ cached.buffer →
      pool.buffers[b]? = cache.bufferPool.buffers[b]?)
    (hf : (f cached).buffer = cached.buffer) : ∃ rest, Effect cache { cache with
      bufferPool := pool
      files := update cache.files (hash filename)
        (change nameOf filename f (cache.files (hash filename))) }
      [cached] [f cached] rest := by
  rcases entries_split hfind with ⟨rest, hperm, hchange, -⟩
  have hused := hledger.perm (hperm.map CachedFile.buffer)
  refine ⟨rest, hperm, hchange f, ⟨free, ?_⟩, hcount.trans hperm.length_eq, fun other hother => ?_⟩
  · rwa [singleton_append, map_cons, hf]
  · have hmem : other.buffer ∈ buffersInUse cache :=
      mem_map_of_mem (hperm.mem_iff.2 (mem_cons_of_mem _ hother))
    exact entryData_congr (hsame _ hmem (hused.ne_of_cons (mem_map_of_mem hother)))

theorem Access.added_effect (hcount : cache.cachedFilesCount = (entries cache).length)
    (hheld : Holding cache pool b) (filename : CString) (size : Nat) (now : Int) :
    Effect cache (addEntry { cache with bufferPool := pool } filename b size now) []
      [newEntry filename b size now] (entries cache) :=
  ⟨.refl _, contents_insert cache.files (hash filename) _, hheld.ledger, congrArg (· + 1) hcount,
    fun _ hcached => entryData_congr (hheld.same _ (mem_map_of_mem hcached))⟩

theorem Access.accounted (h : Access cache filename d cache') (hcache : Accounted cache) :
    Accounted cache' := by
  cases h with
  | failed hledger hsame => exact (failed_effect hcache.count hledger hsame).accounted
  | hit hfind hledger hsame hf =>
    rcases hit_effect hcache.count hfind hledger hsame (hf _).2 with ⟨rest, heffect⟩
    exact heffect.accounted
  | added now hmiss hheld => exact (added_effect hcache.count hheld ..).accounted

theorem Access.sound (h : Access cache filename d cache') (hcache : Sound cache)
    (hlen : d.isSome → filename.bytes.length < 256) :
    Sound cache' ∧ cachedData cache' =
      update (cachedData cache) filename (d.or (cachedData cache filename)) := by
  cases h with
  | failed hledger hsame =>
    rw [none_or, update_eq_self]
    rcases (failed_effect hcache.count hledger hsame).sound_drop hcache hcache.placed
      with ⟨hsound, hdata⟩
    exact ⟨hsound, hdata.trans (funext fun name => if_neg not_mem_nil)⟩
  | @hit cached pool free f d hfind hledger hsame hf hdata =>
    rcases hit_effect hcache.count hfind hledger hsame (hf _).2 with ⟨rest, heffect⟩
    have hold : entryData cache.bufferPool cached = cachedData cache filename := by
      rw [cachedData, hfind, bind_some]
    have hname : nameOf (f cached) = filename := (hf cached).1.trans (findCached_mem hfind).2
    have hput := heffect.sound_put hcache (hcache.placed_update fun other hother =>
      ?_) (fun old hold => ?_) ?_
    · rw [hname] at hput
      exact ⟨hput.1, hput.2.trans (by rw [hdata, hold])⟩
    · -- every name of the changed bucket is one of the old bucket
      have hmem : nameOf other ∈ (cache.files (hash filename)).map nameOf := by
        rw [← map_change (k := filename) (f := f) fun cached => (hf cached).1]
        exact mem_map_of_mem hother
      rcases mem_map.1 hmem with ⟨old, hold, heq⟩
      rw [← heq, hcache.placed _ old hold]
    · rw [mem_singleton.1 hold, (hf cached).1]
    · have hnames := (heffect.before.map nameOf).nodup_iff.1 hcache.names
      rw [singleton_append, map_cons, nodup_cons] at hnames
      rw [(hf cached).1]
      exact hnames.1
  | @added pool b data now hmiss hheld hholds =>
    have hname := nameOf_newEntry (hlen rfl) b data.length now
    have hentry : entryData pool (newEntry filename b data.length now) = some data :=
      hholds.entryData rfl rfl
    rw [some_or, ← hentry]
    have hput := (added_effect hcache.count hheld filename data.length now).sound_put
      hcache ?_ ?_ ?_
    · rwa [hname] at hput
    · refine hcache.placed_update fun cached hcached => ?_
      rcases mem_cons.1 hcached with rfl | hcached
      · exact congrArg hash hname
      · exact hcache.placed _ cached hcached
    · exact nofun
    · rw [hname]
      exact hcache.notMem_names hmiss

theorem touch_eq_change (filename : CString) (now : Int) (bucket : List CachedFile) :
    touch filename now bucket =
      change nameOf filename (fun cached => { cached with lastAccessed := now }) bucket := by
  induction bucket with
  | nil => rfl
  | cons first bucket ih =>
    rw [touch, change, ih]
    rfl

theorem fault_eq_none {fault : Option Fault} (hopen : ¬(fault = some .open ∨ fault = some .read))
    (hmalloc : ¬fault = some .malloc) : fault = none := by
  cases fault with
  | none => rfl
  | some fault =>
    cases fault with
    | «open» => exact absurd (.inl rfl) hopen
    | read => exact absurd (.inr rfl) hopen
    | malloc => exact absurd rfl hmalloc

def loaded (disk : Disk) (cache : Cache) (r : Request) : Option (List UInt8) :=
  if loads disk cache r then cut (disk r.filename) else none

theorem loadFile_access (disk : Disk) {r : Request} (hmiss : findCached cache r.filename = none)
    (hcount : cache.bufferPool.freeCount ≠ 0) (hheld : Holding cache pool b) :
    ∃ cache' buffer, loadFile disk { cache with bufferPool := pool } r.filename r.now r.fault b =
        some (cache', buffer) ∧ Access cache r.filename (loaded disk cache r) cache' := by
  -- every error exit gives the buffer back
  have hback : ∀ {pool : BufferPool}, Holding cache pool b → loads disk cache r = false →
      ∃ cache' buffer, giveBack { cache with bufferPool := pool } b = some (cache', buffer) ∧
        Access cache r.filename (loaded disk cache r) cache' := by
    intro pool hheld hloads
    rcases hheld.giveBack with ⟨cache', hgive, haccess⟩
    exact ⟨cache', none, hgive, by rwa [loaded, hloads]⟩
  cases hdisk : disk r.filename with
  | none =>
    simp only [loadFile, hdisk]
    apply hback hheld
    simp [loads, hdisk]
  | some content =>
    have htake : (content.take (BUFFER_SIZE - 1)).length < BUFFER_SIZE :=
      lt_of_le_of_lt (length_take_le _ _) (by decide)
    rcases hheld.fill htake with ⟨pool', hfill, hheld', hholds⟩
    simp only [loadFile, hdisk]
    split
    · rename_i hfault
      apply hback hheld
      rcases hfault with hfault | hfault
      · simp [loads, hfault]
      · simp [loads, hfault]
    · rename_i hopen
      simp only [hfill]
      split_ifs with hfault
      · apply hback hheld'
        simp [loads, hfault]
      · have hloads : loads disk cache r := by
          simp [loads, hmiss, hcount, fault_eq_none hopen hfault, hdisk]
        rw [loaded, if_pos hloads, hdisk, cut, map_some]
        exact ⟨_, _, rfl, .added r.now hmiss hheld' hholds⟩

theorem readRequest_access (h : Accounted cache) (disk : Disk) (r : Request) :
    ∃ cache', readRequest disk cache r = some cache' ∧
      Access cache r.filename (loaded disk cache r) cache' := by
  cases hfind : findCached cache r.filename with
  | some cached =>
    have hloads : loads disk cache r = false := by simp [loads, hfind]
    rcases h.ledger with ⟨free, hledger⟩
    refine ⟨_, by rw [readRequest, readFileCached, hfind]; rfl, ?_⟩
    rw [loaded, hloads, touch_eq_change]
    exact .hit hfind hledger (fun _ _ _ => rfl) (fun _ => ⟨rfl, rfl⟩) rfl nofun
  | none =>
    rcases h.acquire with ⟨hcount, hacquire⟩ | ⟨b, pool, hcount, hacquire, hheld⟩
    · have hloads : loads disk cache r = false := by simp [loads, hcount]
      rcases h.ledger with ⟨free, hledger⟩
      refine ⟨cache, ?_, ?_⟩
      · simp [readRequest, readFileCached, hfind, readMiss, hacquire]
      · rw [loaded, hloads]
        exact .failed hledger fun _ _ => rfl
    · rcases loadFile_access disk hfind hcount hheld with ⟨cache', buffer, hload, haccess⟩
      refine ⟨cache', ?_, haccess⟩
      simp [readRequest, readFileCached, hfind, readMiss, hacquire, hload]

/-- A write returns 0 and brings its data into the cache, or it returns -1. -/
theorem writeFileCached_access (h : Accounted cache) (filename : CString)
    (data : List UInt8) (now : Int)
    (noMemory : Bool) : ∃ cache' code d, writeFileCached cache filename data now noMemory =
    some (cache', code) ∧ Access cache filename d cache' ∧
        (code = 0 ∧ data.length < BUFFER_SIZE ∧ d = some data ∨
          code = -1 ∧ d = none ∧ (data.length < BUFFER_SIZE →
            findCached cache filename = none)) := by
  rcases h.ledger with ⟨free, hledger⟩
  have hsame : Access cache filename none cache := .failed hledger fun _ _ => rfl
  rw [writeFileCached]
  split_ifs with hlong
  · exact ⟨cache, -1, none, rfl, hsame, .inr ⟨rfl, rfl, fun hlen => absurd hlen (not_lt.2 hlong)⟩⟩
  · have hlen : data.length < BUFFER_SIZE := not_le.1 hlong
    cases hfind : findCached cache filename with
    | some cached =>
      rcases entries_split hfind with ⟨rest, hperm, -⟩
      rcases (hledger.perm (hperm.map CachedFile.buffer)).fill hlen
        with ⟨pool, hfill, hledger', hholds, hagree⟩
      refine ⟨_, 0, some data, by simp only [hfill]; rfl, ?_, .inl ⟨rfl, hlen, rfl⟩⟩
      refine .hit hfind (hledger'.perm (hperm.map CachedFile.buffer).symm) (fun b hb hne => ?_)
        (fun _ => ⟨rfl, rfl⟩) (hholds.entryData rfl rfl) fun _ hdata =>
          (Option.mem_some.1 hdata) ▸ hholds
      exact hagree b ((mem_cons.1 ((hperm.map CachedFile.buffer).mem_iff.1 hb)).resolve_left hne)
    | none =>
      simp only [writeMiss]
      rcases h.acquire with ⟨-, hacquire⟩ | ⟨b, pool, -, hacquire, hheld⟩
      · exact ⟨cache, -1, none, by rw [hacquire]; rfl, hsame, .inr ⟨rfl, rfl, fun _ => trivial⟩⟩
      · rcases hheld.fill hlen with ⟨pool', hfill, hheld', hholds⟩
        rcases hheld'.giveBack with ⟨cache1, hback, haccess⟩
        simp only [hacquire, hfill, hback, bind_eq_bind, bind_some]
        split
        · exact ⟨_, _, none, rfl, haccess, .inr ⟨rfl, rfl, fun _ => trivial⟩⟩
        · exact ⟨_, _, some data, rfl, .added now hfind hheld' hholds, .inl ⟨rfl, hlen, rfl⟩⟩

theorem readRequest_data (disk : Disk) (h : Sound cache) {r : Request}
    (hlen : loads disk cache r → r.filename.bytes.length < 256) :
    ∃ cache', readRequest disk cache r = some cache' ∧ Sound cache' ∧
      cachedData cache' = update (cachedData cache) r.filename
        ((loaded disk cache r).or (cachedData cache r.filename)) := by
  rcases readRequest_access h.toAccounted disk r with ⟨cache', hread, haccess⟩
  refine ⟨cache', hread, haccess.sound h fun hsome => hlen ?_⟩
  by_contra hloads
  rw [loaded, if_neg hloads] at hsome
  cases hsome

/-- What a write does: its data is in the map, or it failed and the map is the old one. -/
structure WriteEffect (cache : Cache) (filename : CString) (data : List UInt8) (cache' : Cache)
    (code : Int) : Prop where
  sound : Sound cache'
  data : code = 0 ∧ data.length < BUFFER_SIZE ∧
      cachedData cache' = update (cachedData cache) filename (some data) ∨
    code = -1 ∧ cachedData cache' = cachedData cache

theorem writeFileCached_data (h : Sound cache) (data : List UInt8) (now : Int)
    (noMemory : Bool) (hlen : filename.bytes.length < 256) :
    ∃ cache' code, writeFileCached cache filename data now noMemory = some (cache', code) ∧
      WriteEffect cache filename data cache' code := by
  rcases writeFileCached_access h.toAccounted filename data now noMemory
    with ⟨cache', code, d, hwrite, haccess, hcode⟩
  rcases haccess.sound h fun _ => hlen with ⟨hsound, hdata⟩
  refine ⟨cache', code, hwrite, hsound, ?_⟩
  rcases hcode with ⟨rfl, hshort, rfl⟩ | ⟨rfl, rfl, -⟩
  · exact .inl ⟨rfl, hshort, by rw [hdata, some_or]⟩
  · exact .inr ⟨rfl, by rw [hdata, none_or, update_eq_self]⟩

/-! ## Writing back -/

theorem flushCachedFile_data (h : Sound cache) (disk : Disk) (name : CString) :
    ∃ code, flushCachedFile cache disk name =
      some (update disk name ((cachedData cache name).or (disk name)), code) := by
  rw [flushCachedFile, cachedData]
  cases hfind : findCached cache name with
  | none => exact ⟨-1, by simp⟩
  | some cached =>
    rcases h.ledger with ⟨free, hledger⟩
    rcases hledger.exists_used (mem_map_of_mem (findCached_mem hfind).1) with ⟨n, hn, -⟩
    simp [hn, entryData]

theorem flushAllCachedFiles_data (h : Sound cache) (disk : Disk) :
    flushAllCachedFiles cache disk = some fun name => (cachedData cache name).or (disk name) := by
  have hrun : ∀ (names : List CString) (disk : Disk),
      runCalls (fun disk filename => (flushCachedFile cache disk filename).map Prod.fst) disk
        names =
        some fun name =>
          if name ∈ names then (cachedData cache name).or (disk name) else disk name := by
    intro names
    induction names with
    | nil => simp [runCalls]
    | cons first names ih =>
      intro disk
      rcases flushCachedFile_data h disk first with ⟨code, hfirst⟩
      simp only [runCalls, hfirst, map_some, bind_some]
      rw [ih]
      congr 1
      funext name
      -- flushing a file a second time changes nothing
      rcases eq_or_ne name first with rfl | heq
      · cases cachedData cache name with
        | none => simp
        | some data => simp
      · simp [heq]
  rw [flushAllCachedFiles, hrun]
  congr 1
  funext name
  split_ifs with hname
  · rfl
  · rw [cachedData_eq_none hname, none_or]

theorem destroyFileCache_data (h : Sound cache) (disk : Disk) :
    destroyFileCache cache disk = some fun name => (cachedData cache name).or (disk name) := by
  rcases h.ledger with ⟨free, hledger⟩
  rcases hledger.releaseAll with ⟨pool, hpool⟩
  rw [buffersInUse] at hpool
  rw [destroyFileCache, flushAllCachedFiles_data h, hpool]
  rfl

/-! ## Dropping entries -/

theorem without_append (v : CString → Option (List UInt8)) (names names' : List CString) :
    without (without v names) names' = without v (names ++ names') := by
  funext name
  simp only [without]
  by_cases hname : name ∈ names'
  · simp [hname]
  · simp [hname]

theorem removeCachedFile_effect (h : Accounted cache)
    (hfind : findCached cache filename = some cached) :
    ∃ cache' rest, removeCachedFile cache filename = some cache' ∧
      Effect cache cache' [cached] [] rest ∧
      cache'.files = update cache.files (hash filename)
        ((cache.files (hash filename)).eraseP fun cached => nameOf cached = filename) := by
  rcases h.ledger with ⟨free, hledger⟩
  rcases entries_split hfind with ⟨rest, hperm, -, herase⟩
  rcases (hledger.perm (hperm.map CachedFile.buffer)).release with ⟨pool, hrelease, hledger', hsame⟩
  simp only [removeCachedFile, hfind, hrelease]
  refine ⟨_, rest, rfl, ⟨hperm, herase, ⟨_, hledger'⟩, ?_,
    fun other hother => entryData_congr (hsame _ (mem_map_of_mem hother))⟩, rfl⟩
  simp [h.count, hperm.length_eq]

theorem removeCachedFile_accounted (h : Accounted cache) (filename : CString) :
    ∃ cache', removeCachedFile cache filename = some cache' ∧ Accounted cache' := by
  cases hfind : findCached cache filename with
  | none => exact ⟨cache, by rw [removeCachedFile, hfind], h⟩
  | some cached =>
    rcases removeCachedFile_effect h hfind with ⟨cache', rest, hremove, heffect, -⟩
    exact ⟨cache', hremove, heffect.accounted⟩

theorem removeCachedFile_data (h : Sound cache) (hmem : cached ∈ entries cache) :
    ∃ cache', removeCachedFile cache (nameOf cached) = some cache' ∧ Sound cache' ∧
      cachedData cache' = without (cachedData cache) [nameOf cached] ∧
      (entries cache).Perm (cached :: entries cache') := by
  rcases removeCachedFile_effect h.toAccounted (h.find hmem)
    with ⟨cache', rest, hremove, heffect, hfiles⟩
  have hplaced : ∀ i, ∀ cached ∈ cache'.files i, hash (nameOf cached) = i := by
    rw [hfiles]
    exact h.placed_update fun cached hcached => h.placed _ cached (eraseP_subset hcached)
  rcases heffect.sound_drop h hplaced with ⟨hsound, hdata⟩
  exact ⟨cache', hremove, hsound, hdata, heffect.before.trans (heffect.after.symm.cons cached)⟩

theorem removeVictim_eq (hmem : cached ∈ entries cache) :
    removeVictim cache cached = removeCachedFile cache (nameOf cached) :=
  if_pos (any_eq_true.2 ⟨cached, hmem, decide_eq_true rfl⟩)

theorem removeVictims_data (h : Sound cache) {victims : List CachedFile}
    (hmem : victims.Subperm (entries cache)) :
    ∃ cache', runCalls removeVictim cache victims = some cache' ∧ Sound cache' ∧
      cachedData cache' = without (cachedData cache) (victims.map nameOf) ∧
      (entries cache).Perm (victims ++ entries cache') := by
  induction victims generalizing cache with
  | nil => exact ⟨cache, rfl, h, funext fun name => (if_neg not_mem_nil).symm, .refl _⟩
  | cons victim victims ih =>
    have hvictim := hmem.subset mem_cons_self
    rcases removeCachedFile_data h hvictim with ⟨cache1, hremove, hsound1, hdata1, hperm⟩
    have hrest : victims.Subperm (entries cache1) := by
      rwa [hperm.subperm_left, subperm_cons] at hmem
    rcases ih hsound1 hrest with ⟨cache2, hrun, hsound2, hdata2, hperm2⟩
    refine ⟨cache2, ?_, hsound2, ?_, hperm.trans (hperm2.cons victim)⟩
    · rw [runCalls, removeVictim_eq hvictim, hremove, bind_some, hrun]
    · rw [hdata2, hdata1, without_append]
      rfl

theorem evictLruFiles_data (h : Sound cache) (maxFiles : Nat) :
    ∃ cache', evictLruFiles cache maxFiles = some cache' ∧ Sound cache' ∧
      cachedData cache' = without (cachedData cache) ((victims cache maxFiles).map nameOf) ∧
      (entries cache).Perm (victims cache maxFiles ++ entries cache') := by
  have hsub : (victims cache maxFiles).Subperm (entries cache) :=
    (take_sublist _ _).subperm.trans (bubbleSort_perm _ _).subperm
  rw [evictLruFiles]
  split
  · have hnone : victims cache maxFiles = [] := by
      rw [victims, Int.toNat_eq_zero.2 (by omega), take_zero]
    rw [hnone]
    exact ⟨cache, rfl, h, funext fun name => (if_neg not_mem_nil).symm, .refl _⟩
  · have hcount := h.count
    rw [if_neg (by omega)]
    exact removeVictims_data h hsub

theorem cleanupBucket_spec (now maxAge : Int) {others : List CachedFile}
    (h : Ledger pool free ((bucket ++ others).map CachedFile.buffer)) :
    ∃ pool' free', cleanupBucket now maxAge pool bucket =
        some (pool', bucket.filter fun cached => !aged now maxAge cached,
          (bucket.filter (aged now maxAge)).length) ∧ Ledger pool' free'
        ((bucket.filter (fun cached => !aged now maxAge cached) ++ others).map CachedFile.buffer) ∧
      ∀ cached ∈ bucket.filter (fun cached => !aged now maxAge cached) ++ others,
        entryData pool' cached = entryData pool cached := by
  induction bucket generalizing pool free others with
  | nil => exact ⟨pool, free, rfl, h, fun _ _ => rfl⟩
  | cons first bucket ih =>
    by_cases hold : aged now maxAge first
    · rcases Ledger.release h with ⟨pool1, hfirst, h1, hsame1⟩
      rcases ih h1 with ⟨pool2, free2, hrun, h2, hsame2⟩
      rw [filter_cons_of_neg (by simpa using hold)]
      refine ⟨pool2, free2, by simp [cleanupBucket, hold, hfirst, hrun], h2,
        fun cached hcached => ?_⟩
      have hmem : cached.buffer ∈ (bucket ++ others).map CachedFile.buffer :=
        mem_map_of_mem ((filter_sublist.append_right others).subset hcached)
      exact (hsame2 cached hcached).trans (entryData_congr (hsame1 _ hmem))
    · -- an entry that stays joins the others
      rcases ih (h.perm (perm_middle.symm.map CachedFile.buffer))
        with ⟨pool1, free1, hrun, h1, hsame1⟩
      rw [filter_cons_of_pos (by simpa using hold)]
      refine ⟨pool1, free1, by simp [cleanupBucket, hold, hrun],
        h1.perm (perm_middle.map CachedFile.buffer),
        fun cached hcached => hsame1 cached (perm_middle.mem_iff.2 hcached)⟩

theorem cleanupAt_effect (h : Accounted cache) (now maxAge : Int) (i : Fin CACHE_SIZE) :
    ∃ cache' kept, cleanupAt now maxAge cache i = some cache' ∧
      Effect cache cache' ((cache.files i).filter (aged now maxAge)) [] kept ∧
      cache'.files = update cache.files i ((cache.files i).filter fun cached =>
        !aged now maxAge cached) := by
  rcases h.ledger with ⟨free, hledger⟩
  rcases exists_rest cache.files i with ⟨others, hothers⟩
  have hbucket := contents_perm hothers
  rcases cleanupBucket_spec now maxAge (hledger.perm (hbucket.map CachedFile.buffer)) with
    ⟨pool, free', hrun, hledger', hsame⟩
  have hperm : (entries cache).Perm ((cache.files i).filter (aged now maxAge) ++
      ((cache.files i).filter (fun cached => !aged now maxAge cached) ++ others)) := by
    apply hbucket.trans
    rw [← append_assoc]
    exact (filter_append_perm _ _).symm.append_right others
  simp only [cleanupAt, hrun]
  refine ⟨_, _, rfl, ⟨hperm, hothers _, ⟨free', hledger'⟩, ?_, hsame⟩, rfl⟩
  simp only [h.count, hperm.length_eq, length_append, nil_append]
  omega

theorem cleanupAt_data (h : Sound cache) (now maxAge : Int) (i : Fin CACHE_SIZE) :
    ∃ cache', cleanupAt now maxAge cache i = some cache' ∧ Sound cache' ∧
      cachedData cache' = without (cachedData cache)
        (((cache.files i).filter (aged now maxAge)).map nameOf) ∧
      ∀ j, j ≠ i → cache'.files j = cache.files j := by
  rcases cleanupAt_effect h.toAccounted now maxAge i with ⟨cache', kept, hrun, heffect, hfiles⟩
  have hplaced : ∀ i, ∀ cached ∈ cache'.files i, hash (nameOf cached) = i := by
    rw [hfiles]
    exact h.placed_update fun cached hcached => h.placed _ cached (filter_subset_self _ hcached)
  rcases heffect.sound_drop h hplaced with ⟨hsound, hdata⟩
  exact ⟨cache', hrun, hsound, hdata, fun j hj => by rw [hfiles, update_of_ne hj]⟩

theorem cleanupOldEntries_data (h : Sound cache) (now maxAge : Int) :
    ∃ cache', cleanupOldEntries cache now maxAge = some cache' ∧ Sound cache' ∧
      cachedData cache' = without (cachedData cache)
        (((entries cache).filter (aged now maxAge)).map nameOf) := by
  -- the buckets still to come are as they were at the start
  have hbuckets : ∀ (is : List (Fin CACHE_SIZE)) {cache : Cache}, is.Nodup → Sound cache →
      ∃ cache', runCalls (cleanupAt now maxAge) cache is = some cache' ∧ Sound cache' ∧
        cachedData cache' = without (cachedData cache)
          (((is.flatMap cache.files).filter (aged now maxAge)).map nameOf) := by
    intro is
    induction is with
    | nil => exact fun _ h => ⟨_, rfl, h, funext fun name => (if_neg not_mem_nil).symm⟩
    | cons i is ih =>
      intro cache hnodup h
      rw [nodup_cons] at hnodup
      rcases cleanupAt_data h now maxAge i with ⟨cache1, hrun1, hsound1, hdata1, hfiles1⟩
      rcases ih hnodup.2 hsound1 with ⟨cache2, hrun2, hsound2, hdata2⟩
      have hrest : is.flatMap cache1.files = is.flatMap cache.files := by
        apply flatMap_congr
        intro j hj
        apply hfiles1
        rintro rfl
        exact hnodup.1 hj
      refine ⟨cache2, ?_, hsound2, ?_⟩
      · rw [runCalls, hrun1, bind_some, hrun2]
      · rw [hdata2, hdata1, without_append, hrest, flatMap_cons, filter_append, map_append]
  exact hbuckets _ (nodup_finRange _) h

end SystemsLab.FileCache
