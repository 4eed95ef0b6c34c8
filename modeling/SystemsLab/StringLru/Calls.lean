import SystemsLab.StringLru.Insert

/-!
# The calls that the string cache serves

Every sequence of calls that `History.allowed` admits gives the results of an LRU cache.  Without
the condition the results are wrong after four calls: two keys in one bucket are enough.
-/

namespace SystemsLab.StringLru

open List Function Option

open FileCache (hash CACHE_SIZE)
open Recent (keep)

/-- The cache represents the calls so far. -/
def Serves (cache : Cache) (h : History) : Prop :=
  ∃ as, Rep cache as h.cached h.stored ∧ (h.spread = true → Tidy cache as) ∧
    (h.spread = true → h.disturbed = false → Listed cache as)

variable {cache cache' : Cache} {as : List Nat} {h : History} {a : Nat} {key data : CString}

theorem init_serves : Serves createLruCache History.init := by
  refine ⟨[], ⟨rfl, rfl, rfl, rfl, nodup_nil, by simp, by simp, ?_, by simp⟩,
    fun _ => ⟨by simp, by simp, by simp⟩, fun _ _ => ⟨isChain_nil, rfl⟩⟩
  rintro i a ⟨⟩

/-! ## Using a cached key -/

theorem Serves.use_first {rest : List CString} (hs : Serves cache h)
    (hcached : h.cached = key :: rest) :
    Serves cache (h.use key) := by
  rcases hs with ⟨as, hrep, htidy, hlisted⟩
  have hsame : (h.use key).cached = h.cached := by
    have hmem : key ∈ h.cached := by simp [hcached]
    rw [h.cached_use, Recent.keep_of_mem h.length_cached_le hmem, hcached, erase_cons_head]
  have hspread : (h.use key).spread = h.spread := by rw [History.spread, hsame, History.spread]
  refine ⟨as, hsame ▸ hrep, hspread ▸ htidy, fun hs hd => hlisted (hspread ▸ hs) ?_⟩
  exact (Bool.or_eq_false_iff.1 hd).1

theorem Serves.use_other {first : Nat} (hrep : Rep cache as h.cached h.stored)
    (htidy : Tidy cache as) (hlisted : h.disturbed = false → Listed cache as)
    (hfirst : as.head? = some first) (ha : a ∈ as) (hne : first ≠ a)
    (hka : keyAt cache.heap a = some key) (hmoved : Moved cache cache' first a) :
    Serves cache' (h.use key) := by
  have hkey : key ∈ h.cached := hrep.key_mem ha hka
  have hcached : (h.use key).cached = key :: h.cached.erase key := by
    rw [h.cached_use, Recent.keep_of_mem h.length_cached_le hkey]
  rcases hrep.move htidy hfirst ha hmoved hne hka with ⟨hrep', htidy'⟩
  refine ⟨a :: as.erase a, hcached ▸ hrep', fun _ => htidy', fun _ hd => ?_⟩
  -- the list stays whole only if the key was the least recently used one
  rcases Bool.or_eq_false_iff.1 hd with ⟨hd, hinside⟩
  have hhead : h.cached.head? ≠ some key := by
    intro hhead
    rw [← hrep.head?_iff ha hka, hfirst] at hhead
    exact hne (some.inj hhead)
  have hlast : h.cached.getLast? = some key := by simpa [History.inside, hkey, hhead] using hinside
  obtain ⟨l, hl⟩ := getLast?_eq_some_iff.1 ((hrep.getLast?_iff ha hka).2 hlast)
  subst hl
  cases l with
  | nil =>
    cases hfirst
    exact absurd rfl hne
  | cons b rest =>
    cases hfirst
    have hnotin : a ∉ first :: rest := fun hin => hrep.ne_last hin rfl
    rw [erase_append_right _ hnotin, erase_cons_head, append_nil]
    exact (hlisted hd).move hrep hmoved

theorem Serves.cacheGet (hs : Serves cache h) (hkey : key ∈ h.cached)
    (hok : h.allowsUse key = true) :
    ∃ cache' a, cacheGet cache key = some (cache', some a) ∧ dataAt cache'.heap a = h.stored key ∧
      Serves cache' (h.use key) := by
  have hserves := hs
  rcases hs with ⟨as, hrep, htidy, hlisted⟩
  rcases hrep.exists_node hkey with ⟨a, ha, hka⟩
  have hda := hrep.data_eq a ha key hka
  by_cases hhead : h.cached.head? = some key
  · have hfirst := (hrep.head?_iff ha hka).2 hhead
    obtain ⟨rest, hrest⟩ := head?_eq_some_iff.1 hhead
    refine ⟨cache, a, ?_, hda, hserves.use_first hrest⟩
    simp [StringLru.cacheGet, lookup_first (hrep.first a hfirst key hka) hka, moveToFront,
      hrep.head_eq, hfirst]
  · have hspread : h.spread = true := by simpa [History.allowsUse, hhead] using hok
    obtain ⟨first, hfirst⟩ : ∃ first, as.head? = some first := by
      cases as with
      | nil => cases ha
      | cons b as => exact ⟨b, rfl⟩
    have hne : first ≠ a := by
      rintro rfl
      exact hhead ((hrep.head?_iff ha hka).1 hfirst)
    rcases hrep.exists_move (htidy hspread) hfirst ha hne with ⟨cache', hmove, hmoved⟩
    have hlookup := lookup_first ((htidy hspread).table_eq a ha key hka) hka
    refine ⟨cache', a, by simp [StringLru.cacheGet, hlookup, hmove], ?_, ?_⟩
    · rw [hmoved.links.data, hda]
    · exact Serves.use_other hrep (htidy hspread) (hlisted hspread) hfirst ha hne hka hmoved

theorem Serves.cacheGet_missing (hs : Serves cache h) (hkey : key ∉ h.cached) :
    StringLru.cacheGet cache key = some (cache, none) := by
  rcases hs with ⟨as, hrep, -⟩
  simp [StringLru.cacheGet, hrep.lookup_missing hkey]

theorem Serves.setData (hs : Serves cache h) (hhead : h.cached.head? = some key)
    (hdata : data.bytes.length < DATA_SIZE) : ∃ current cache', lookup cache key = some current ∧
      setPtr cache current (fun n => { n with data := .copy data }) = some cache' ∧
      Serves cache' { h with stored := update h.stored key (some data) } := by
  rcases hs with ⟨as, hrep, htidy, hlisted⟩
  rcases hrep.exists_node (mem_of_mem_head? hhead) with ⟨a, ha, hka⟩
  have hlookup := lookup_first (hrep.first a ((hrep.head?_iff ha hka).2 hhead) key hka) hka
  let heap := cache.heap.assign (some a) fun n => { n with data := .copy data }
  have hset : setPtr cache (some a) (fun n => { n with data := .copy data }) =
    some { cache with heap } :=
    setNode_eq (hrep.alive ha) _
  have hsame : SameNodes cache { cache with heap } as :=
    ⟨rfl, rfl, rfl, rfl, rfl, fun b _ => Heap.map_assign (by simp) _ b,
      fun b _ => bind_assign (by simp) _ b, fun b _ => bind_assign (by simp) _ b⟩
  refine ⟨some a, { cache with heap }, hlookup, hset, as,
    hrep.congr hsame fun b hb k hk => ?_, fun hs => (htidy hs).congr hsame hrep,
    fun hs hd => (hlisted hs hd).congr hsame⟩
  change dataAt heap b = update h.stored key (some data) k
  by_cases hba : b = a
  · subst hba
    rcases (hrep.alive hb).exists_cell with ⟨node, hnode, -⟩
    rw [hka] at hk
    cases hk
    simp [dataAt, heap, Heap.cell_assign, hnode, CBuf.str_copy hdata]
  · -- the other nodes have other keys
    have hne : k ≠ key := by
      rintro rfl
      exact hba (hrep.eq_of_key hb ha (hk.trans hka.symm))
    have hold : dataAt heap b = dataAt cache.heap b :=
      congrArg _ (Heap.assign_of_ne (by simpa using Ne.symm hba))
    rw [update_of_ne hne, hold]
    exact hrep.data_eq b hb k hk

/-! ## A new key -/

/-- There is a free place: the new node may also share its bucket. -/
theorem Serves.linkNew_free (hrep : Rep cache as h.cached h.stored)
    (htidy : h.spread = true → Tidy cache as)
    (hlisted : h.spread = true → h.disturbed = false → Listed cache as)
    (hlen : h.cached.length < CACHE_SIZE) (ha : a ∉ as) (hkey : key ∉ h.cached)
    (hka : keyAt cache.heap a = some key) (hda : dataAt cache.heap a = some data) :
    ∃ cache', makeRoom cache = some cache ∧ linkNew cache a key = some cache' ∧
      Serves cache' { h.use key with stored := update h.stored key (some data) } := by
  have hcached : (h.use key).cached = key :: h.cached := by
    rw [h.cached_use, Recent.keep_of_lt hlen hkey]
  have hroom : makeRoom cache = some cache := by
    rw [makeRoom, if_neg]
    rw [hrep.capacity_eq, hrep.count_eq, hrep.length_eq]
    omega
  rcases hrep.exists_insert ha hkey hka hda with ⟨cache', hlink, hrep', htidy', hlist'⟩
  -- a bucket that was shared before is still shared
  have hspread : (h.use key).spread = true →
    ((key :: h.cached).map hash).Nodup ∧ h.spread = true := by
    intro hs
    rw [History.spread, hcached, decide_eq_true_eq] at hs
    exact ⟨hs, decide_eq_true (nodup_cons.1 hs).2⟩
  refine ⟨cache', hroom, hlink, _, hcached ▸ hrep', fun hs => ?_, fun hs hd => ?_⟩
  · exact htidy' (htidy (hspread hs).2) (hspread hs).1
  · exact hlist' (hlisted (hspread hs).2 (Bool.or_eq_false_iff.1 hd).1)

theorem Serves.linkNew_full (hrep : Rep cache as h.cached h.stored) (htidy : Tidy cache as)
    (hlisted : Listed cache as) (hlen : h.cached.length = CACHE_SIZE) (ha : a ∉ as)
    (hkey : key ∉ h.cached) (hka : keyAt cache.heap a = some key)
    (hda : dataAt cache.heap a = some data) :
    ∃ cache1 cache', makeRoom cache = some cache1 ∧ linkNew cache1 a key = some cache' ∧
      Serves cache' { h.use key with stored := update h.stored key (some data) } := by
  rcases exists_evict hrep htidy hlisted (hrep.length_eq.trans hlen) with
    ⟨cache1, l, lru, hroom, rfl, hrep1, htidy1, hlist1, hsame1⟩
  have hne : a ≠ lru := by
    rintro rfl
    exact ha (by simp)
  have hdrop : key ∉ h.cached.dropLast := fun hmem => hkey (dropLast_subset _ hmem)
  rcases hrep1.exists_insert (fun hmem => ha (mem_append_left _ hmem)) hdrop
    ((hsame1 a hne).1.trans hka) ((hsame1 a hne).2.trans hda) with
    ⟨cache', hlink, hrep', htidy', hlist'⟩
  have hcached : (h.use key).cached = key :: h.cached.dropLast := by
    rw [h.cached_use]
    rcases eq_nil_or_concat' h.cached with hnil | ⟨ks, oldest, hks⟩
    · rw [hnil] at hlen
      cases hlen
    · rw [hks, length_append, length_singleton] at hlen
      rw [hks, ← hlen, Recent.keep_of_full (hks ▸ hkey), dropLast_concat]
  refine ⟨cache1, cache', hroom, hlink, _, hcached ▸ hrep', fun hs => ?_, fun _ _ => hlist' hlist1⟩
  change decide (((h.use key).cached).map hash).Nodup = true at hs
  rw [hcached, decide_eq_true_eq] at hs
  exact htidy' htidy1 hs

theorem Serves.insertNew (hs : Serves cache h) (hkey : key ∉ h.cached) (hok : h.allowsNew = true)
    (hkeysize : key.bytes.length < KEY_SIZE) (hdata : data.bytes.length < DATA_SIZE) (hint : Nat) :
    ∃ cache', insertNew cache key data hint = some cache' ∧
      Serves cache' { h.use key with stored := update h.stored key (some data) } := by
  rcases hs with ⟨as, hrep, htidy, hlisted⟩
  let node : Node := ⟨.copy key, .copy data, none, none⟩
  rcases hrep.alloc hint node with ⟨hfresh, hsame, hrep1⟩
  have hka : keyAt (cache.heap.alloc hint node) (cache.heap.freshAddr hint) = some key := by
    rw [keyAt, Heap.alloc_self, map_some, CBuf.str_copy hkeysize]
  have hda : dataAt (cache.heap.alloc hint node) (cache.heap.freshAddr hint) = some data := by
    rw [dataAt, Heap.alloc_self, map_some, CBuf.str_copy hdata]
  by_cases hlen : h.cached.length < CACHE_SIZE
  · rcases Serves.linkNew_free hrep1 (fun hs => (htidy hs).congr hsame hrep)
      (fun hs hd => (hlisted hs hd).congr hsame) hlen hfresh hkey hka hda with
      ⟨cache', hroom, hlink, hserves⟩
    exact ⟨cache', by simp [StringLru.insertNew, node, hroom, hlink], hserves⟩
  · have hfull : h.cached.length = CACHE_SIZE := le_antisymm h.length_cached_le (not_lt.1 hlen)
    have hwhole : h.spread = true ∧ h.disturbed = false := by
      simpa [History.allowsNew, hlen] using hok
    rcases Serves.linkNew_full hrep1 ((htidy hwhole.1).congr hsame hrep)
      ((hlisted hwhole.1 hwhole.2).congr hsame) hfull hfresh hkey hka hda with
      ⟨cache1, cache', hroom, hlink, hserves⟩
    exact ⟨cache', by simp [StringLru.insertNew, node, hroom, hlink], hserves⟩

/-! ## Whole runs -/

theorem Serves.call {s : Session} {c : CacheCall} (hs : Serves s.cache h)
    (hres : s.results = h.results) (hfits : c.Fits) (hok : h.allows c = true) :
    ∃ s', sessionCall s c = some s' ∧ Serves s'.cache (h.call c) ∧
      s'.results = (h.call c).results := by
  cases c with
  | get key =>
    by_cases hkey : key ∈ h.cached
    · have hallowed : h.allowsUse key = true := by simpa [History.allows, hkey] using hok
      rcases hs.cacheGet hkey hallowed with ⟨cache', a, hget, hda, hserves⟩
      refine ⟨⟨cache', s.results ++ [h.stored key]⟩, ?_, ?_, ?_⟩
      · simp [sessionCall, hget, hda]
      · rwa [History.call, if_pos hkey]
      · rw [History.call, if_pos hkey, hres]
    · refine ⟨⟨s.cache, s.results ++ [none]⟩, ?_, ?_, ?_⟩
      · simp [sessionCall, hs.cacheGet_missing hkey]
      · rwa [History.call, if_neg hkey]
      · rw [History.call, if_neg hkey, hres]
  | put key data hint =>
    by_cases hkey : key ∈ h.cached
    · have hallowed : h.allowsUse key = true := by simpa [History.allows, hkey] using hok
      rcases hs.cacheGet hkey hallowed with ⟨cache1, a, hget, -, hserves⟩
      have hused : (h.use key).cached.head? = some key := by
        rw [h.cached_use, Recent.keep_of_mem h.length_cached_le hkey, head?_cons]
      rcases hserves.setData hused hfits.2 with ⟨current, cache', hlookup, hset, hserves'⟩
      refine ⟨⟨cache', s.results⟩, ?_, hserves', hres⟩
      simp [sessionCall, cachePut, hget, hlookup, hset]
    · have hallowed : h.allowsNew = true := by simpa [History.allows, hkey] using hok
      rcases hs.insertNew hkey hallowed hfits.1 hfits.2 hint with ⟨cache', hinsert, hserves⟩
      refine ⟨⟨cache', s.results⟩, ?_, hserves, hres⟩
      simp [sessionCall, cachePut, hs.cacheGet_missing hkey, hinsert]

theorem run_serves {s : Session} {calls : List CacheCall} (hs : Serves s.cache h)
    (hres : s.results = h.results) (hfits : ∀ c ∈ calls, c.Fits) (hok : h.allowed calls = true) :
    ∃ s', CallSequence.runCalls sessionCall s calls = some s' ∧
      s'.results = (calls.foldl History.call h).results := by
  induction calls generalizing s h with
  | nil => exact ⟨s, rfl, hres⟩
  | cons c calls ih =>
    rw [History.allowed, Bool.and_eq_true] at hok
    rcases hs.call hres (hfits c mem_cons_self) hok.1 with ⟨s1, hs1, hserves, hres1⟩
    rcases ih hserves hres1 (fun d hd => hfits d (mem_cons_of_mem _ hd)) hok.2 with ⟨s2, hs2, hres2⟩
    refine ⟨s2, ?_, hres2⟩
    rw [CallSequence.runCalls, hs1, bind_some, hs2]

/-- The results of `cache_get` are those of an LRU cache with `CACHE_SIZE` places, if every call
comes when it is allowed. -/
theorem string_cache_is_lru (calls : List CacheCall) (hfits : ∀ c ∈ calls, c.Fits)
    (hok : History.init.allowed calls = true) :
    ∃ s, CallSequence.runCalls sessionCall Session.init calls = some s ∧
      s.results = (calls.foldl History.call History.init).results :=
  run_serves init_serves rfl hfits hok

/-- A full cache: the oldest key is used again, so that the next one makes room for a new key in its
own bucket. -/
def fullCacheCalls : List CacheCall :=
  [.put (.ofLiteral "a") (.ofLiteral "1") 0, .put (.ofLiteral "b") (.ofLiteral "2") 0,
   .put (.ofLiteral "c") (.ofLiteral "3") 0, .put (.ofLiteral "d") (.ofLiteral "4") 0,
   .put (.ofLiteral "e") (.ofLiteral "5") 0, .get (.ofLiteral "a"),
   .put (.ofLiteral "g") (.ofLiteral "6") 0, .get (.ofLiteral "b"), .get (.ofLiteral "a")]

theorem string_cache_is_lru_full :
    ∃ s, CallSequence.runCalls sessionCall Session.init fullCacheCalls = some s ∧
      s.results = [some (.ofLiteral "1"), none, some (.ofLiteral "1")] := by
  rcases string_cache_is_lru fullCacheCalls (by decide +kernel) (by decide +kernel)
    with ⟨s, hrun, hresults⟩
  refine ⟨s, hrun, hresults.trans ?_⟩
  decide +kernel

def sharedBucketCalls : List CacheCall :=
  [.put (.ofLiteral "a") (.ofLiteral "1") 0, .put (.ofLiteral "f") (.ofLiteral "2") 0,
   .get (.ofLiteral "a"), .get (.ofLiteral "a")]

/-- The first use of the older key takes it out of the chain of the bucket; the second one does not
find it, although two keys are far from filling the cache. -/
theorem shared_bucket_loses_key :
    (CallSequence.runCalls sessionCall Session.init sharedBucketCalls).map Session.results =
      some [some (.ofLiteral "1"), none] ∧
        (sharedBucketCalls.foldl History.call History.init).results =
      [some (.ofLiteral "1"), some (.ofLiteral "1")] := by
  decide +kernel

end SystemsLab.StringLru
