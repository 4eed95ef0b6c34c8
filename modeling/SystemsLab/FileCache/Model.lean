import SystemsLab.CLib.CString
import SystemsLab.Data.BubbleSort
import SystemsLab.Data.KeyedList
import SystemsLab.FileCache.BufferPool

/-!
# The file cache of `file-caching-system.c`

The entries of a bucket are a list, newest first.  The disk maps names to contents.  `time(NULL)` is
an input of the calls that read the clock, and so is the system call that fails in a read, if one
does. The messages and the statistics are left out.
-/

namespace SystemsLab.FileCache

open CallSequence BubbleSort KeyedList Function

def POOL_SIZE : Nat := 10

def CACHE_SIZE : Nat := 5

abbrev Disk := CString → Option (List UInt8)

instance neZeroFilename : NeZero 256 := ⟨by decide⟩

structure CachedFile where
  filename : CBuf 256
  buffer : Nat
  fileSize : Nat
  lastAccessed : Int

structure Cache where
  bufferPool : BufferPool
  files : Fin CACHE_SIZE → List CachedFile
  cachedFilesCount : Nat

/-- `hash` of `lru-cache.c`, with `char` signed. -/
def hash (key : CString) : Fin CACHE_SIZE :=
  let value : UInt32 := key.bytes.foldl (fun h c => h * 31 + c.toInt8.toInt32.toUInt32) 0
  ⟨value.toNat % CACHE_SIZE, Nat.mod_lt _ (by decide)⟩

def createFileCache : Cache := ⟨createBufferPool POOL_SIZE, fun _ => [], 0⟩

def nameOf (cached : CachedFile) : CString := cached.filename.str

/-- The loop over the bucket of a file. -/
def findCached (cache : Cache) (filename : CString) : Option CachedFile :=
  (cache.files (hash filename)).find? fun cached => cached.filename.str = filename

def touch (filename : CString) (now : Int) : List CachedFile → List CachedFile
  | [] => []
  | cached :: bucket =>
    if cached.filename.str = filename then { cached with lastAccessed := now } :: bucket
    else cached :: touch filename now bucket

/-- The system call of a read that fails. -/
inductive Fault where
  | open
  | read
  | malloc
  deriving DecidableEq

/-- The data of a buffer that was read from a file. -/
def fillBuffer (pool : BufferPool) (b : Nat) (bytes : List UInt8) : Option BufferPool := do
  let n ← pool.buffers[b]?
  let data ← n.data.store bytes
  let data ← data.set bytes.length 0
  some { pool with buffers := pool.buffers.set b { n with data := data } }

/-- The rest of `read_file_cached` after an error: the buffer goes back. -/
def giveBack (cache : Cache) (b : Nat) : Option (Cache × Option Nat) := do
  let pool ← releaseBuffer cache.bufferPool b
  some ({ cache with bufferPool := pool }, none)

def addEntry (cache : Cache) (filename : CString) (b size : Nat) (now : Int) : Cache :=
  -- a long name is cut here, while the bucket is that of the whole name
  let entry : CachedFile := ⟨CBuf.copy filename, b, size, now⟩
  { cache with
    files := update cache.files (hash filename) (entry :: cache.files (hash filename))
    cachedFilesCount := cache.cachedFilesCount + 1 }

/-- `read_file_cached` after a miss, with a buffer for the file. -/
def loadFile (disk : Disk) (cache : Cache) (filename : CString) (now : Int)
    (fault : Option Fault) (b : Nat) : Option (Cache × Option Nat) :=
  match disk filename with
  | none => giveBack cache b
  | some content =>
    if fault = some .open ∨ fault = some .read then giveBack cache b
    else do
      -- one `read`, however long the file is
      let bytes := content.take (BUFFER_SIZE - 1)
      let pool ← fillBuffer cache.bufferPool b bytes
      if fault = some .malloc then giveBack { cache with bufferPool := pool } b
      else some (addEntry { cache with bufferPool := pool } filename b bytes.length now, some b)

def readMiss (disk : Disk) (cache : Cache) (filename : CString) (now : Int)
    (fault : Option Fault) : Option (Cache × Option Nat) := do
  let (pool, buffer) ← acquireBuffer cache.bufferPool
  match buffer with
  | none => some ({ cache with bufferPool := pool }, none)
  | some b => loadFile disk { cache with bufferPool := pool } filename now fault b

/-- `read_file_cached`; the result is the buffer with the data, or `NULL`. -/
def readFileCached (disk : Disk) (cache : Cache) (filename : CString) (now : Int)
    (fault : Option Fault) : Option (Cache × Option Nat) :=
  match findCached cache filename with
  | some cached =>
    let files := update cache.files (hash filename)
      (touch filename now (cache.files (hash filename)))
    some ({ cache with files := files }, some cached.buffer)
  | none => readMiss disk cache filename now fault

structure Request where
  filename : CString
  now : Int
  fault : Option Fault

def readRequest (disk : Disk) (cache : Cache) (r : Request) : Option Cache :=
  (readFileCached disk cache r.filename r.now r.fault).map Prod.fst

/-- One round of the loop of `prefetch_files`. -/
def prefetchFile (disk : Disk) (cache : Cache) (r : Request) : Option Cache :=
  if (findCached cache r.filename).isSome then some cache
  else readRequest disk cache r

def prefetchFiles (disk : Disk) (cache : Cache) (rs : List Request) : Option Cache :=
  runCalls (prefetchFile disk) cache rs

/-! ## Writing -/

/-- `write_file_cached` after a miss; `noMemory` makes its `malloc` fail. -/
def writeMiss (cache : Cache) (filename : CString) (data : List UInt8) (now : Int)
    (noMemory : Bool) : Option (Cache × Int) := do
  let (pool, buffer) ← acquireBuffer cache.bufferPool
  match buffer with
  | none => some ({ cache with bufferPool := pool }, -1)
  | some b => do
      let pool ← fillBuffer pool b data
      if noMemory then do
        let (cache, _) ← giveBack { cache with bufferPool := pool } b
        some (cache, -1)
      else some (addEntry { cache with bufferPool := pool } filename b data.length now, 0)

/-- `write_file_cached` with the bytes of `data`; the result is the returned code. -/
def writeFileCached (cache : Cache) (filename : CString) (data : List UInt8) (now : Int)
    (noMemory : Bool) : Option (Cache × Int) :=
  if BUFFER_SIZE ≤ data.length then some (cache, -1)
  else
    match findCached cache filename with
    | some cached => do
        let pool ← fillBuffer cache.bufferPool cached.buffer data
        let bucket := change nameOf filename
          (fun cached => { cached with fileSize := data.length, lastAccessed := now })
          (cache.files (hash filename))
        some ({ cache with bufferPool := pool
                           files := update cache.files (hash filename) bucket }, 0)
    | none => writeMiss cache filename data now noMemory

/-! ## Writing back -/

/-- `flush_cached_file` with the write succeeding; the result is the returned code. -/
def flushCachedFile (cache : Cache) (disk : Disk) (filename : CString) : Option (Disk × Int) :=
  match findCached cache filename with
  | none => some (disk, -1)
  | some cached => do
      let n ← cache.bufferPool.buffers[cached.buffer]?
      -- `O_TRUNC`: nothing of the old content stays
      some (update disk filename (some (n.data.front cached.fileSize)), 0)

def entries (cache : Cache) : List CachedFile :=
  (List.finRange CACHE_SIZE).flatMap cache.files

def cachedNames (cache : Cache) : List CString :=
  (entries cache).map fun cached => cached.filename.str

/-- `flush_all_cached_files`: the disk afterwards. -/
def flushAllCachedFiles (cache : Cache) (disk : Disk) : Option Disk :=
  runCalls (fun disk filename => (flushCachedFile cache disk filename).map Prod.fst) disk
    (cachedNames cache)

/-- `destroy_file_cache`: the disk afterwards. -/
def destroyFileCache (cache : Cache) (disk : Disk) : Option Disk := do
  let disk ← flushAllCachedFiles cache disk
  let _ ← runCalls releaseBuffer cache.bufferPool ((entries cache).map CachedFile.buffer)
  some disk

/-! ## Dropping entries -/

/-- `remove_cached_file`: the first entry of that name leaves its bucket, and its buffer is
released. -/
def removeCachedFile (cache : Cache) (filename : CString) : Option Cache :=
  match findCached cache filename with
  | none => some cache
  | some cached => do
      -- nothing is written to the file
      let pool ← releaseBuffer cache.bufferPool cached.buffer
      let bucket := (cache.files (hash filename)).eraseP fun cached => nameOf cached = filename
      some { bufferPool := pool
             files := update cache.files (hash filename) bucket
             cachedFilesCount := cache.cachedFilesCount - 1 }

/-- `remove_cached_file(cache, files[i].file->filename)`: the name is read through a pointer to the
entry, which must not have been freed.  The buffer tells the entries apart.  The message at the end
of `remove_cached_file` reads the name after `free` and is left out. -/
def removeVictim (cache : Cache) (victim : CachedFile) : Option Cache :=
  if (entries cache).any fun cached => cached.buffer = victim.buffer then
    removeCachedFile cache victim.filename.str
  else none

def victims (cache : Cache) (maxFiles : Int) : List CachedFile :=
  (bubbleSort CachedFile.lastAccessed (entries cache)).take
    (cache.cachedFilesCount - maxFiles : Int).toNat

/-- `evict_lru_files`.  The array has `cached_files_count` elements, of which the gathering loop
initialises one for each entry; an access beyond either fails. -/
def evictLruFiles (cache : Cache) (maxFiles : Int) : Option Cache :=
  if (cache.cachedFilesCount : Int) ≤ maxFiles then some cache
  else if cache.cachedFilesCount < (entries cache).length ∨
      ((entries cache).length : Int) < cache.cachedFilesCount - maxFiles then none
  else runCalls removeVictim cache (victims cache maxFiles)

/-- The test `difftime(now, current->last_accessed) > max_age_seconds`. -/
def aged (now maxAge : Int) (cached : CachedFile) : Bool :=
  maxAge < now - cached.lastAccessed

/-- The loop of `cleanup_old_entries` over a bucket: the pool, the entries that stay and the number
of those that go. -/
def cleanupBucket (now maxAge : Int) :
    BufferPool → List CachedFile → Option (BufferPool × List CachedFile × Nat)
  | pool, [] => some (pool, [], 0)
  | pool, cached :: bucket =>
    if aged now maxAge cached then do
      let pool ← releaseBuffer pool cached.buffer
      let (pool, kept, gone) ← cleanupBucket now maxAge pool bucket
      some (pool, kept, gone + 1)
    else do
      let (pool, kept, gone) ← cleanupBucket now maxAge pool bucket
      some (pool, cached :: kept, gone)

/-- One round of the loop of `cleanup_old_entries` over the buckets. -/
def cleanupAt (now maxAge : Int) (cache : Cache) (i : Fin CACHE_SIZE) : Option Cache := do
  let (pool, kept, gone) ← cleanupBucket now maxAge cache.bufferPool (cache.files i)
  some { bufferPool := pool
         files := update cache.files i kept
         cachedFilesCount := cache.cachedFilesCount - gone }

def cleanupOldEntries (cache : Cache) (now maxAge : Int) : Option Cache :=
  runCalls (cleanupAt now maxAge) cache (List.finRange CACHE_SIZE)

/-! ## Calls that read -/

inductive ReadCall where
  | read (r : Request)
  | prefetch (rs : List Request)

def readCall (disk : Disk) (cache : Cache) : ReadCall → Option Cache
  | .read r => readRequest disk cache r
  | .prefetch rs => prefetchFiles disk cache rs

def runReads (disk : Disk) (calls : List ReadCall) : Option Cache :=
  runCalls (readCall disk) createFileCache calls

/-! ## Calls that write -/

inductive CacheCall where
  | write (filename : CString) (data : List UInt8) (now : Int) (noMemory : Bool)
  | read (r : Request)
  | flush (filename : CString)
  | evict (maxFiles : Nat)
  | cleanup (now maxAge : Int)

/-- The cache, the disk, and for every file the data of the last write that returned 0. -/
structure Session where
  cache : Cache
  disk : Disk
  written : CString → Option (List UInt8)

def openSession (disk : Disk) : Session := ⟨createFileCache, disk, fun _ => none⟩

def sessionCall (s : Session) : CacheCall → Option Session
  | .write filename data now noMemory => do
      let (cache, code) ← writeFileCached s.cache filename data now noMemory
      let written := if code = 0 then update s.written filename (some data) else s.written
      some { s with cache := cache, written := written }
  | .read r => do
      let cache ← readRequest s.disk s.cache r
      some { s with cache := cache }
  | .flush filename => do
      let (disk, _) ← flushCachedFile s.cache s.disk filename
      some { s with disk := disk }
  | .evict maxFiles => do
      let cache ← evictLruFiles s.cache maxFiles
      some { s with cache := cache }
  | .cleanup now maxAge => do
      let cache ← cleanupOldEntries s.cache now maxAge
      some { s with cache := cache }

end SystemsLab.FileCache
