import SystemsLab.FileCache.Contents

/-!
# What becomes of the data that is written through the cache

Evicting an entry and ageing one out release its buffer without writing it back.  The data of a file
is what the cache holds for it, and what the disk holds if the cache holds nothing; a dropped entry
changes that unless its file was flushed before.
-/

namespace SystemsLab.FileCache

open CallSequence List Function Option

def CacheCall.nameFits : CacheCall → Prop
  | .write filename _ _ _ => filename.bytes.length ≤ 255
  | .read r => r.filename.bytes.length ≤ 255
  | .flush filename => filename.bytes.length ≤ 255
  | .evict _ => True
  | .cleanup _ _ => True

/-- The entries that a call drops without writing them back. -/
def dropped (s : Session) : CacheCall → List CachedFile
  | .evict maxFiles => victims s.cache maxFiles
  | .cleanup now maxAge => (entries s.cache).filter (aged now maxAge)
  | _ => []

/-- The call drops no file whose last write is not on the disk. -/
def keepsWrites (s : Session) (call : CacheCall) : Bool :=
  (dropped s call).all fun cached =>
    s.written (nameOf cached) = none ∨ s.disk (nameOf cached) = s.written (nameOf cached)

/-- A file has the data that was last written to it, in the cache or else on the disk. -/
structure Safe (s : Session) : Prop where
  sound : Sound s.cache
  kept : ∀ name data, s.written name = some data →
    data.length < BUFFER_SIZE ∧ (cachedData s.cache name).or (s.disk name) = some data

variable {s : Session}

theorem openSession_safe (disk : Disk) : Safe (openSession disk) := by
  refine ⟨createFileCache_sound, ?_⟩
  nofun

variable {cache : Cache}

theorem Safe.drop (h : Safe s) {call : CacheCall} (hkeeps : keepsWrites s call)
    (hsound : Sound cache)
    (hdata : cachedData cache = without (cachedData s.cache) ((dropped s call).map nameOf)) :
    Safe { s with cache := cache } := by
  refine ⟨hsound, ?_⟩
  intro name data hwritten
  rcases h.kept name data hwritten with ⟨hlen, hkept⟩
  refine ⟨hlen, ?_⟩
  simp only [hdata, without]
  split_ifs with hname
  · rcases mem_map.1 hname with ⟨cached, hcached, rfl⟩
    have hflushed := all_eq_true.1 hkeeps cached hcached
    rw [decide_eq_true_eq, hwritten] at hflushed
    rcases hflushed with hnone | hdisk
    · cases hnone
    · exact hdisk
  · exact hkept

theorem Safe.write (h : Safe s) {filename : CString} {data : List UInt8} {code : Int}
    (heffect : WriteEffect s.cache filename data cache code) :
    Safe { s with
      cache := cache
      written := if code = 0 then update s.written filename (some data) else s.written } := by
  refine ⟨heffect.sound, ?_⟩
  intro name data' hwritten
  rcases heffect.data with ⟨rfl, hlen, hdata⟩ | ⟨rfl, hdata⟩
  · simp only [if_true, update_apply] at hwritten
    simp only [hdata, update_apply]
    by_cases hname : name = filename
    · rw [if_pos hname] at hwritten ⊢
      cases hwritten
      exact ⟨hlen, rfl⟩
    · rw [if_neg hname] at hwritten ⊢
      exact h.kept name data' hwritten
  · have hwritten' : s.written name = some data' := hwritten
    simp only [hdata]
    exact h.kept name data' hwritten'

/-- A file that is read back is one that was written whole. -/
theorem Safe.read (h : Safe s) {r : Request} (hsound : Sound cache)
    (hdata : cachedData cache = update (cachedData s.cache) r.filename
      ((loaded s.disk s.cache r).or (cachedData s.cache r.filename))) : Safe { s
      with cache := cache } := by
  refine ⟨hsound, ?_⟩
  intro name data hwritten
  rcases h.kept name data hwritten with ⟨hlen, hkept⟩
  refine ⟨hlen, ?_⟩
  simp only [hdata, update_apply, loaded]
  split
  · rename_i hname
    subst hname
    split
    · rename_i hloads
      -- the file was not in the cache, so its data is on the disk, and it fits a buffer
      have hmiss : cachedData s.cache r.filename = none := by
        simp only [loads, Bool.and_eq_true, isNone_iff_eq_none] at hloads
        rw [cachedData, hloads.1.1.1, bind_none]
      rw [hmiss, none_or] at hkept
      rw [hkept, cut, map_some, take_of_length_le (Nat.le_sub_one_of_lt hlen)]
      rfl
    · exact hkept
  · exact hkept

theorem Safe.flush (h : Safe s) (filename : CString) :
    Safe { s with
      disk := update s.disk filename ((cachedData s.cache filename).or (s.disk filename)) } := by
  refine ⟨h.sound, ?_⟩
  intro name data hwritten
  rcases h.kept name data hwritten with ⟨hlen, hkept⟩
  refine ⟨hlen, ?_⟩
  simp only [update_apply]
  split_ifs with hname
  · rw [← hname, ← Option.or_assoc, Option.or_self, hkept]
  · exact hkept

theorem sessionCall_safe (h : Safe s) {call : CacheCall} (hname : call.nameFits)
    (hkeeps : keepsWrites s call) : ∃ s', sessionCall s call = some s' ∧ Safe s' := by
  cases call with
  | write filename data now noMemory =>
    rcases writeFileCached_data h.sound data now noMemory (Nat.lt_succ_of_le hname) with
      ⟨cache, code, hwrite, heffect⟩
    refine ⟨_, ?_, h.write heffect⟩
    simp [sessionCall, hwrite]
  | read r =>
    rcases readRequest_data s.disk h.sound fun _ => Nat.lt_succ_of_le hname
      with ⟨cache, hread, hsound, hdata⟩
    refine ⟨_, ?_, h.read hsound hdata⟩
    simp [sessionCall, hread]
  | flush filename =>
    rcases flushCachedFile_data h.sound s.disk filename with ⟨code, hflush⟩
    refine ⟨_, ?_, h.flush filename⟩
    simp [sessionCall, hflush]
  | evict maxFiles =>
    rcases evictLruFiles_data h.sound maxFiles with ⟨cache, hevict, hsound, hdata, -⟩
    refine ⟨_, ?_, h.drop hkeeps hsound hdata⟩
    simp [sessionCall, hevict]
  | cleanup now maxAge =>
    rcases cleanupOldEntries_data h.sound now maxAge with ⟨cache, hcleanup, hsound, hdata⟩
    refine ⟨_, ?_, h.drop hkeeps hsound hdata⟩
    simp [sessionCall, hcleanup]

/-- As long as only flushed files are dropped, every write is on the disk in the end. -/
theorem flushed_writes_survive (disk : Disk) (calls : List CacheCall)
    (hnames : ∀ call ∈ calls, call.nameFits)
    (hkeeps : guarded sessionCall keepsWrites (openSession disk) calls) :
    ∃ s disk', runCalls sessionCall (openSession disk) calls = some s ∧
      destroyFileCache s.cache s.disk = some disk' ∧
      ∀ name data, s.written name = some data → disk' name = some data := by
  have hstep : ∀ (s : Session) (_ : List CacheCall), ∀ call ∈ calls, Safe s → keepsWrites s call →
      ∃ s', sessionCall s call = some s' ∧ Safe s' := by
    intro s _ call hcall hsafe hok
    exact sessionCall_safe hsafe (hnames call hcall) hok
  rcases runCalls_guarded (R := fun s _ => Safe s) hstep (openSession_safe disk) hkeeps
    with ⟨s, hs, hsafe⟩
  refine ⟨s, _, hs, destroyFileCache_data hsafe.sound s.disk, ?_⟩
  intro name data hwritten
  exact (hsafe.kept name data hwritten).2

def nameA : CString := ⟨[97], by decide⟩

-- A hit, a flush before the eviction, a reload, a write that fails and an entry that ages out.
theorem flushed_writes_survive_reload : ∃ s disk', runCalls sessionCall (openSession fun _ => none)
        [.write nameA [104] 1 false, .write nameA [104, 105] 2 false, .flush nameA, .evict 0,
          .read ⟨nameA, 3, none⟩, .write ⟨[98], by decide⟩ [120] 4 true, .cleanup 9 5] = some s ∧
      destroyFileCache s.cache s.disk = some disk' ∧
      ∀ name data, s.written name = some data → disk' name = some data := by
  apply flushed_writes_survive
  · intro call hcall
    simp only [mem_cons, not_mem_nil, or_false] at hcall
    rcases hcall with rfl | rfl | rfl | rfl | rfl | rfl | rfl
    all_goals first | trivial | exact Nat.le_of_ble_eq_true rfl
  · decide +kernel

/-- What was last written to a file, and what is on the disk when the cache has been destroyed. -/
def outcome (disk : Disk) (calls : List CacheCall) (name : CString) :
    Option (Option (List UInt8) × Option (List UInt8)) := do
  let s ← runCalls sessionCall (openSession disk) calls
  let disk' ← destroyFileCache s.cache s.disk
  some (s.written name, disk' name)

/-- A write that was not flushed is lost when its entry is evicted or ages out. -/
theorem dropped_write_is_lost :
    outcome (fun _ => none) [.write nameA [104] 1 false, .evict 0] nameA = some (some [104], none) ∧
      outcome (fun _ => none) [.write nameA [104] 1 false, .cleanup 3 1] nameA =
        some (some [104], none) := by
  decide +kernel

end SystemsLab.FileCache
