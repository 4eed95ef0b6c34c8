import SystemsLab.Concurrent.Outline
import SystemsLab.Data.ChainBuckets
import SystemsLab.LockedMap.Model

/-!
# What is known of the chains and the threads

A bucket whose lock is free holds what the operations of the log leave in it.  A thread with the
lock knows how far the chain is from there.

* `Chain` — the chain of a bucket is a list of entries; `Settled` — it holds what the log says;
* `At` — what a thread knows at its program point;
* `Touches`, `Keeps` — what an act changes, and what the other threads rely on.
-/

namespace SystemsLab.LockedMap

open ChainBuckets Concurrent KeyedList Function Option Heap

/-! ## Chains -/

abbrev Item := ChainBuckets.Item CString Int

def mem (heap : Heap Entry) : Memory CString Int :=
  .ofHeap heap Entry.next fun e => (e.key, e.value)

abbrev Chain (d : HashMap) (i : Fin NUM_BUCKETS) (l : List Item) : Prop :=
  Bucket (mem d.heap) hash (d.head i) i l

def contents (l : List Item) : List (CString × Int) := l.map fun x => (x.key, x.val)

/-- The bucket holds what the operations of the log leave in it. -/
def Settled (d : HashMap) (i : Fin NUM_BUCKETS) : Prop :=
  ∃ l, Chain d i l ∧ after d.log i = contents l

variable {d d' : HashMap} {i : Fin NUM_BUCKETS} {x : Item} {l before rest : List Item}
  {key : CString}

@[simp] theorem map_fst_contents (l : List Item) : (contents l).map Prod.fst = l.map Item.key := by
  rw [contents, List.map_map]
  rfl

theorem contents_middle : contents (before ++ x :: rest) = contents before ++ (x.key, x.val) ::
    contents rest := by
  rw [contents, List.map_append]
  rfl

theorem cell_eq (h : Chain d i (before ++ x :: rest)) :
    d.heap.cell x.addr = some ⟨x.key, x.val, (rest.map Item.addr).head?⟩ := by
  rcases Bucket.cell_eq h with ⟨⟨key, value, next⟩, hcell, hdata, hnext⟩
  rw [hcell, ← (Prod.mk.inj hdata).1, ← (Prod.mk.inj hdata).2, ← hnext]

theorem chain_congr (h : Chain d i l) (hhead : d'.head i = d.head i)
    (hcells : ∀ x ∈ l, d'.heap.cell x.addr = d.heap.cell x.addr) : Chain d' i l := by
  rw [Chain, hhead]
  exact .congr h hcells

theorem lookup_contents (hlog : after d.log (hash key) = contents l) :
    lastInsert key d.log = (lookup Item.key key l).map Item.val := by
  calc
    lastInsert key d.log = (lookup Prod.fst key (after d.log (hash key))).map Prod.snd :=
      (lookup_after key d.log).symm
    _ = (lookup Prod.fst key (contents l)).map Prod.snd := by rw [hlog]
    _ = (lookup Item.key key l).map Item.val := by
      rw [contents, lookup, lookup, List.find?_map, map_map]
      rfl

/-! ## Threads -/

/-- The bucket whose lock a thread holds. -/
def within : Pc → Option (Fin NUM_BUCKETS)
  | .insertFirst r | .insertScan r _ | .assign r _ | .create r => some (hash r.key)
  | .link key _ | .publish key _ | .insertUnlock key => some (hash key)
  | .lookupFirst key | .lookupScan key _ | .fetch key _ | .lookupUnlock key _ => some (hash key)
  | _ => none

/-- The last operation of the thread is the lookup. -/
def Asked (th : Nat) (d : HashMap) (key : CString) : Prop :=
  d.log[d.ticket th]? = some (.lookup key)

/-- What was inserted when the lookup got the lock. -/
def seen (th : Nat) (d : HashMap) (key : CString) : Option Int :=
  lastInsert key (d.log.take (d.ticket th))

/-- A lookup with the lock: the key has not been inserted since. -/
def Reading (th : Nat) (d : HashMap) (key : CString) : Prop :=
  Asked th d key ∧ seen th d key = lastInsert key d.log

/-- What a thread knows at its program point. -/
def At (th : Nat) (d : HashMap) : Pc → Prop
  | .idle | .insertLock _ | .lookupLock _ => True
  -- the operation is in the log already, and its value is still to be set
  | .insertFirst r => ∃ l, Chain d (hash r.key) l ∧
    after d.log (hash r.key) = put r.key r.value (contents l)
  | .insertScan r e => ∃ before l, Chain d (hash r.key) (before ++ l) ∧
    r.key ∉ before.map Item.key ∧ e = (l.map Item.addr).head? ∧
        after d.log (hash r.key) = put r.key r.value (contents (before ++ l))
  -- the search has ended at the key or at the end of the chain
  | .assign r e => ∃ before x l, Chain d (hash r.key) (before ++ x :: l) ∧
    r.key ∉ before.map Item.key ∧ e = x.addr ∧ x.key = r.key ∧
        after d.log (hash r.key) = put r.key r.value (contents (before ++ x :: l))
  | .create r => ∃ l, Chain d (hash r.key) l ∧ r.key ∉ l.map Item.key ∧
      after d.log (hash r.key) = (r.key, r.value) :: contents l
  -- the new entry is not in a chain, since its key is not
  | .link key newE => ∃ l value next, Chain d (hash key) l ∧ key ∉ l.map Item.key ∧
      d.heap.cell newE = some ⟨key, value, next⟩ ∧
        after d.log (hash key) = (key, value) :: contents l
  | .publish key newE => ∃ l value, Chain d (hash key) l ∧ key ∉ l.map Item.key ∧
      d.heap.cell newE = some ⟨key, value, d.head (hash key)⟩ ∧
      after d.log (hash key) = (key, value) :: contents l
  | .insertUnlock key => Settled d (hash key)
  -- a lookup changes nothing, so the chain is what the log says all along
  | .lookupFirst key => Settled d (hash key) ∧ Reading th d key
  | .lookupScan key e => ∃ before l, Chain d (hash key) (before ++ l) ∧ key ∉ before.map Item.key ∧
      e = (l.map Item.addr).head? ∧ after d.log (hash key) = contents (before ++ l) ∧
        Reading th d key
  | .fetch key e => ∃ before x l, Chain d (hash key) (before ++ x :: l) ∧ e = x.addr ∧ x.key = key ∧
      after d.log (hash key) = contents (before ++ x :: l) ∧ Reading th d key
  | .lookupUnlock key result => Settled d (hash key) ∧ Asked th d key ∧ result = seen th d key
  | .lookupReturn key result => Asked th d key ∧ result = seen th d key
  | .crash => False

variable {th : Nat} {p : Pc} {m : Fin NUM_BUCKETS} {mark : Nat → HashMap → HashMap}

theorem At.exists_chain (h : At th d p) (hi : within p = some i) : ∃ l, Chain d i l := by
  cases p with
  | insertFirst r | create r =>
    cases hi
    rcases h with ⟨l, hchain, -⟩
    exact ⟨l, hchain⟩
  | insertScan r e | lookupScan key e =>
    cases hi
    rcases h with ⟨before, l, hchain, -⟩
    exact ⟨_, hchain⟩
  | assign r e | fetch key e =>
    cases hi
    rcases h with ⟨before, x, l, hchain, -⟩
    exact ⟨_, hchain⟩
  | link key newE =>
    cases hi
    rcases h with ⟨l, value, next, hchain, -⟩
    exact ⟨l, hchain⟩
  | publish key newE =>
    cases hi
    rcases h with ⟨l, value, hchain, -⟩
    exact ⟨l, hchain⟩
  | insertUnlock key =>
    cases hi
    rcases h with ⟨l, hchain, -⟩
    exact ⟨l, hchain⟩
  | lookupFirst key | lookupUnlock key result =>
    cases hi
    rcases h with ⟨⟨l, hchain, -⟩, -⟩
    exact ⟨l, hchain⟩
  | _ => cases hi

/-! ## What the others rely on -/

/-- The entries of bucket `i`, its head and its part of the log are as they were. -/
structure Keeps (i : Fin NUM_BUCKETS) (d d' : HashMap) : Prop where
  cells : ∀ a e, d.heap.cell a = some e → hash e.key = i → d'.heap.cell a = some e
  head : d'.head i = d.head i
  after : after d'.log i = after d.log i
  last : ∀ key, hash key = i → lastInsert key d'.log = lastInsert key d.log

/-- The thread has made no call, and the log has only grown. -/
structure KeepsTicket (th : Nat) (d d' : HashMap) : Prop where
  ticket : d'.ticket th = d.ticket th
  log : d.log <+: d'.log

variable {u : Nat} {q : Pc}

theorem Keeps.chain (h : Keeps i d d') (hchain : Chain d i l) : Chain d' i l := by
  refine chain_congr hchain h.head fun x hx => ?_
  rcases List.append_of_mem hx with ⟨before, rest, rfl⟩
  have hcell := cell_eq hchain
  rw [hcell, h.cells _ _ hcell (hchain.home x hx)]

theorem Keeps.settled (h : Keeps i d d') (hsettled : Settled d i) : Settled d' i := by
  rcases hsettled with ⟨l, hchain, hlog⟩
  exact ⟨l, h.chain hchain, h.after.trans hlog⟩

theorem KeepsTicket.asked (h : KeepsTicket u d d') (hasked : Asked u d key) : Asked u d' key := by
  rcases h.log with ⟨rest, hrest⟩
  rw [Asked, h.ticket, ← hrest]
  exact List.getElem?_append_left (List.getElem?_eq_some_iff.1 hasked).1 ▸ hasked

theorem KeepsTicket.seen (h : KeepsTicket u d d') (hasked : Asked u d key) :
    seen u d' key = seen u d key := by
  rcases h.log with ⟨rest, hrest⟩
  have hlt := (List.getElem?_eq_some_iff.1 hasked).1
  rw [LockedMap.seen, LockedMap.seen, h.ticket, ← hrest, List.take_append_of_le_length hlt.le]

theorem Reading.frame (hreading : Reading u d key) (h : Keeps (hash key) d d')
    (ht : KeepsTicket u d d') :
    Reading u d' key := by
  refine ⟨ht.asked hreading.1, ?_⟩
  calc
    seen u d' key = seen u d key := ht.seen hreading.1
    _ = lastInsert key d.log := hreading.2
    _ = lastInsert key d'.log := (h.last key rfl).symm

theorem At.frame (hat : At u d q) (ht : KeepsTicket u d d')
    (h : ∀ i, within q = some i → Keeps i d d') :
    At u d' q := by
  cases q with
  | idle | insertLock r | lookupLock key => trivial
  | insertFirst r =>
    rcases hat with ⟨l, hchain, hlog⟩
    have hkeeps := h _ rfl
    exact ⟨l, hkeeps.chain hchain, hkeeps.after.trans hlog⟩
  | insertScan r e =>
    rcases hat with ⟨before, l, hchain, hkey, he, hlog⟩
    have hkeeps := h _ rfl
    exact ⟨before, l, hkeeps.chain hchain, hkey, he, hkeeps.after.trans hlog⟩
  | assign r e =>
    rcases hat with ⟨before, x, l, hchain, hkey, he, hx, hlog⟩
    have hkeeps := h _ rfl
    exact ⟨before, x, l, hkeeps.chain hchain, hkey, he, hx, hkeeps.after.trans hlog⟩
  | create r =>
    rcases hat with ⟨l, hchain, hkey, hlog⟩
    have hkeeps := h _ rfl
    exact ⟨l, hkeeps.chain hchain, hkey, hkeeps.after.trans hlog⟩
  | link key newE =>
    rcases hat with ⟨l, value, next, hchain, hkey, hcell, hlog⟩
    have hkeeps := h _ rfl
    exact ⟨l, value, next, hkeeps.chain hchain, hkey, hkeeps.cells _ _ hcell rfl,
      hkeeps.after.trans hlog⟩
  | publish key newE =>
    rcases hat with ⟨l, value, hchain, hkey, hcell, hlog⟩
    have hkeeps := h _ rfl
    refine ⟨l, value, hkeeps.chain hchain, hkey, ?_, hkeeps.after.trans hlog⟩
    rw [hkeeps.head]
    exact hkeeps.cells _ _ hcell rfl
  | insertUnlock key => exact (h _ rfl).settled hat
  | lookupFirst key => exact ⟨(h _ rfl).settled hat.1, hat.2.frame (h _ rfl) ht⟩
  | lookupScan key e =>
    rcases hat with ⟨before, l, hchain, hkey, he, hlog, hreading⟩
    have hkeeps := h _ rfl
    exact ⟨before, l, hkeeps.chain hchain, hkey, he, hkeeps.after.trans hlog,
      hreading.frame hkeeps ht⟩
  | fetch key e =>
    rcases hat with ⟨before, x, l, hchain, he, hx, hlog, hreading⟩
    have hkeeps := h _ rfl
    exact ⟨before, x, l, hkeeps.chain hchain, he, hx, hkeeps.after.trans hlog,
      hreading.frame hkeeps ht⟩
  | lookupUnlock key result =>
    rcases hat with ⟨hsettled, hasked, hresult⟩
    exact ⟨(h _ rfl).settled hsettled, ht.asked hasked, hresult.trans (ht.seen hasked).symm⟩
  | lookupReturn key result => exact ⟨ht.asked hat.1, hat.2.trans (ht.seen hat.1).symm⟩
  | crash => exact hat

/-! ## Getting the lock -/

variable {op : Op} {th : Nat} {value : Int} {next : Pc}

theorem keeps_record (hi : hash op.key ≠ i) : Keeps i d (record op th d) where
  cells _ _ hcell _ := hcell
  head := rfl
  after := after_concat_of_ne hi
  last _ hkey := lastInsert_concat_of_ne fun heq => hi (heq ▸ hkey)

theorem keepsTicket_record (hu : u ≠ th) : KeepsTicket u d (record op th d) :=
  ⟨update_of_ne hu .., List.prefix_append _ _⟩

theorem after_record_insert (h : after d.log (hash key) = contents l) :
    after (record (.insert key value) th d).log (hash key) = put key value (contents l) := by
  rw [← h]
  change after (d.log ++ [.insert key value]) (hash key) = _
  rw [after_concat, apply, update_self]

theorem settled_record_lookup (h : Settled d i) : Settled (record (.lookup key) th d) i := by
  rcases h with ⟨l, hchain, hlog⟩
  refine ⟨l, hchain, ?_⟩
  change after (d.log ++ [.lookup key]) i = _
  rw [after_concat, apply, hlog]

theorem reading_record : Reading th (record (.lookup key) th d) key := by
  have hticket : (record (.lookup key) th d).ticket th = d.log.length := update_self ..
  have hlog : (record (.lookup key) th d).log = d.log ++ [.lookup key] := rfl
  refine ⟨?_, ?_⟩
  · rw [Asked, hticket, hlog, List.getElem?_concat_length]
  · rw [seen, hticket, hlog, List.take_left, lastInsert_concat]
    rfl

/-! ## Acts -/

/-- The act changes bucket `m` at most. -/
structure Touches (m : Fin NUM_BUCKETS) (d d' : HashMap) : Prop where
  cells : ∀ a e, d.heap.cell a = some e → hash e.key ≠ m → d'.heap.cell a = some e
  head : ∀ i, i ≠ m → d'.head i = d.head i
  log : d'.log = d.log
  ticket : d'.ticket = d.ticket

section Acts

variable {p p' : Pc} {m : Fin NUM_BUCKETS} {a : Nat} {e : Entry}

theorem Touches.keeps (h : Touches m d d') (hi : i ≠ m) : Keeps i d d' where
  cells a e hcell hkey := h.cells a e hcell (hkey ▸ hi)
  head := h.head i hi
  after := by rw [h.log]
  last _ _ := by rw [h.log]

theorem Touches.keepsTicket (h : Touches m d d') : KeepsTicket th d d' :=
  ⟨by rw [h.ticket], by rw [h.log]⟩

theorem touches_adjust (hcell : d.heap.cell a = some e) (hkey : hash e.key = m)
    (f : Entry → Entry) :
    Touches m d { d with heap := d.heap.adjust a f } where
  cells b e' hcell' hne := by
    have hba : b ≠ a := by
      rintro rfl
      rw [hcell, some.injEq] at hcell'
      exact hne (hcell' ▸ hkey)
    exact (adjust_of_ne hba).trans hcell'
  head _ _ := rfl
  log := rfl
  ticket := rfl

theorem cell_alloc {heap : Heap Entry} (hcell : heap.cell a = some e) (hint : Nat) (new : Entry) :
    (heap.alloc hint new).cell a = some e := by
  have hne : a ≠ heap.freshAddr hint := by
    rintro rfl
    rw [heap.cell_freshAddr] at hcell
    cases hcell
  exact (alloc_of_ne hne).trans hcell

theorem touches_alloc (hint : Nat) (new : Entry) :
    Touches m d { d with heap := d.heap.alloc hint new } where
  cells _ _ hcell _ := cell_alloc hcell hint new
  head _ _ := rfl
  log := rfl
  ticket := rfl

theorem touches_head (first : Option Nat) :
    Touches m d { d with head := update d.head m first } where
  cells _ _ hcell _ := hcell
  head _ hi := update_of_ne hi ..
  log := rfl
  ticket := rfl

/-! ### Changes of a chain -/

theorem chain_assign (h : Chain d i (before ++ x :: rest)) (value : Int) :
    Chain { d with heap := d.heap.adjust x.addr fun e => { e with value := value } } i
      (before ++ { x with val := value } :: rest) := by
  have hcell := cell_eq h
  refine h.setVal (fun y _ => ?_) ?_ fun y hy => ?_
  · exact map_adjust (g := Entry.next) (f := fun e => { e with value := value })
      (fun _ => rfl) y.addr
  · simp [mem, Memory.ofHeap, adjust_self hcell]
  · simp only [mem, Memory.ofHeap, adjust_of_ne (h.rest_ne hy)]

theorem addr_ne_of_key (h : Chain d i l) (hkey : key ∉ l.map Item.key)
    (hcell : d.heap.cell a = some e) (he : e.key = key) : ∀ x ∈ l, x.addr ≠ a := by
  rintro x hx rfl
  have hdata : (d.heap.cell x.addr).map (fun e => (e.key, e.value)) =
    some (x.key, x.val) := h.data x hx
  rw [hcell, map_some, some.injEq, Prod.mk.injEq] at hdata
  exact hkey (List.mem_map.2 ⟨x, hx, hdata.1.symm.trans he⟩)

theorem chain_link (h : Chain d i l) (hkey : key ∉ l.map Item.key) (hcell : d.heap.cell a = some e)
    (he : e.key = key) (f : Entry → Entry) : Chain { d with heap := d.heap.adjust a f } i l :=
  chain_congr h rfl fun x hx => adjust_of_ne (addr_ne_of_key h hkey hcell he x hx)

theorem chain_publish (h : Chain d (hash key) l) (hkey : key ∉ l.map Item.key)
    (hcell : d.heap.cell a = some ⟨key, value, d.head (hash key)⟩) :
    Chain { d with head := update d.head (hash key) (some a) } (hash key)
      (⟨a, key, value⟩ :: l) := by
  have hhead : update d.head (hash key) (some a) (hash key) = some a := update_self ..
  simp only [Chain, hhead]
  refine Bucket.cons (x := ⟨a, key, value⟩) h rfl hkey ?_ ?_
  · simp [mem, Memory.ofHeap, hcell]
  · simp [mem, Memory.ofHeap, hcell]

end Acts

/-! ### One act -/

structure Leads (th : Nat) (d : HashMap) (p : Pc) (d' : HashMap) (p' : Pc) : Prop where
  stands : At th d' p'
  within : within p' = within p
  touches : d' = d ∨ ∃ m, LockedMap.within p = some m ∧ Touches m d d'

section Leads

variable {p p' : Pc} {r : Insertion} {e : Option Nat} {a : Nat}
  {f : Nat → Call → (Fin NUM_BUCKETS → Option Nat) → HashMap → Option (HashMap × Pc)} {call : Call}
  {own : Fin NUM_BUCKETS → Option Nat}

theorem scan_next (hkey : key ∉ before.map Item.key) (hx : x.key ≠ key) :
    before ++ x :: l = (before ++ [x]) ++ l ∧ key ∉ (before ++ [x]).map Item.key := by
  rw [List.append_assoc, List.singleton_append, List.map_append, List.mem_append, not_or,
    List.map_singleton,
    List.mem_singleton]
  exact ⟨rfl, hkey, Ne.symm hx⟩

variable (hf : f th call own d = some (d', p'))

include hf

/-- The loop of `hashmap_insert`: the end, the key, or another one. -/
theorem leads_insertScan (hcode : code (.insertScan r e) = .act f)
    (h : At th d (.insertScan r e)) : Leads th d (.insertScan r e) d' p' := by
  rcases h with ⟨before, l, hchain, hkey, rfl, hlog⟩
  cases l with
  | nil =>
    cases hcode
    cases hf
    rw [List.append_nil] at hchain hlog
    refine ⟨⟨before, hchain, hkey, ?_⟩, rfl, .inl rfl⟩
    rw [hlog, put_new]
    rwa [map_fst_contents]
  | cons x l =>
    cases hcode
    simp only [cell_eq hchain] at hf
    cases hf
    split_ifs with hx
    · exact ⟨⟨before, x, l, hchain, hkey, rfl, hx, hlog⟩, rfl, .inl rfl⟩
    · rcases scan_next hkey hx with ⟨hsplit, hkey'⟩
      rw [hsplit] at hchain hlog
      exact ⟨⟨before ++ [x], l, hchain, hkey', rfl, hlog⟩, rfl, .inl rfl⟩

theorem leads_assign (hcode : code (.assign r a) = .act f)
    (h : At th d (.assign r a)) : Leads th d (.assign r a) d' p' := by
  rcases h with ⟨before, x, l, hchain, hkey, rfl, hx, hlog⟩
  have hcell := cell_eq hchain
  cases hcode
  simp only [modify_eq hcell] at hf
  cases hf
  refine ⟨⟨_, chain_assign hchain r.value, ?_⟩, rfl,
    .inr ⟨_, rfl, touches_adjust hcell (by rw [hx]) _⟩⟩
  have hkey' : r.key ∉ (contents before).map Prod.fst := by rwa [map_fst_contents]
  calc
    after d.log (hash r.key) = put r.key r.value (contents (before ++ x :: l)) := hlog
    _ = put r.key r.value (contents before ++ (r.key, x.val) :: contents l) := by
      rw [contents_middle, hx]
    _ = contents before ++ (r.key, r.value) :: contents l := put_middle hkey'
    _ = contents (before ++ { x with val := r.value } :: l) := by rw [contents_middle, hx]

theorem leads_create (hcode : code (.create r) = .act f)
    (h : At th d (.create r)) : Leads th d (.create r) d' p' := by
  rcases h with ⟨l, hchain, hkey, hlog⟩
  cases hcode
  cases hf
  refine ⟨⟨l, r.value, none, Bucket.alloc hchain r.hint _, hkey, ?_, hlog⟩, rfl, ?_⟩
  · exact alloc_self ..
  · exact .inr ⟨_, rfl, touches_alloc r.hint _⟩

theorem leads_link (hcode : code (.link key a) = .act f)
    (h : At th d (.link key a)) : Leads th d (.link key a) d' p' := by
  rcases h with ⟨l, value, next, hchain, hkey, hcell, hlog⟩
  cases hcode
  simp only [modify_eq hcell] at hf
  cases hf
  -- the write goes to the new entry, whose key tells it from the entries of the chain
  refine ⟨⟨l, value, chain_link hchain hkey hcell rfl _, hkey, ?_, hlog⟩, rfl, ?_⟩
  · exact adjust_self hcell
  · exact .inr ⟨_, rfl, touches_adjust hcell rfl _⟩

theorem leads_publish (hcode : code (.publish key a) = .act f)
    (h : At th d (.publish key a)) : Leads th d (.publish key a) d' p' := by
  rcases h with ⟨l, value, hchain, hkey, hcell, hlog⟩
  cases hcode
  cases hf
  exact ⟨⟨_, chain_publish hchain hkey hcell, hlog⟩, rfl, .inr ⟨_, rfl, touches_head _⟩⟩

theorem leads_lookupScan (hcode : code (.lookupScan key e) = .act f)
    (h : At th d (.lookupScan key e)) : Leads th d (.lookupScan key e) d' p' := by
  rcases h with ⟨before, l, hchain, hkey, rfl, hlog, hreading⟩
  cases l with
  | nil =>
    cases hcode
    cases hf
    rw [List.append_nil] at hchain hlog
    refine ⟨⟨⟨before, hchain, hlog⟩, hreading.1, ?_⟩, rfl, .inl rfl⟩
    rw [hreading.2, lookup_contents hlog, lookup_eq_none_iff.2 hkey, map_none]
  | cons x l =>
    cases hcode
    simp only [cell_eq hchain] at hf
    cases hf
    split_ifs with hx
    · exact ⟨⟨before, x, l, hchain, rfl, hx, hlog, hreading⟩, rfl, .inl rfl⟩
    · rcases scan_next hkey hx with ⟨hsplit, hkey'⟩
      rw [hsplit] at hchain hlog
      exact ⟨⟨before ++ [x], l, hchain, hkey', rfl, hlog, hreading⟩, rfl, .inl rfl⟩

theorem leads_fetch (hcode : code (.fetch key a) = .act f)
    (h : At th d (.fetch key a)) : Leads th d (.fetch key a) d' p' := by
  rcases h with ⟨before, x, l, hchain, rfl, hx, hlog, hreading⟩
  cases hcode
  simp only [cell_eq hchain] at hf
  cases hf
  refine ⟨⟨⟨_, hchain, hlog⟩, hreading.1, ?_⟩, rfl, .inl rfl⟩
  -- no key is in the chain twice, so the entry with the key is the one that is looked up
  have hmem : x ∈ before ++ x :: l := List.mem_append_right _ List.mem_cons_self
  rw [hreading.2, lookup_contents hlog, lookup_of_mem hchain.keys hmem hx, map_some]

theorem leads (hcode : code p = .act f) (h : At th d p) : Leads th d p d' p' := by
  cases p with
  | idle =>
    cases hcode
    cases hf
    cases call with
    | insert r => exact ⟨trivial, rfl, .inl rfl⟩
    | lookup key => exact ⟨trivial, rfl, .inl rfl⟩
  | insertFirst r =>
    cases hcode
    cases hf
    rcases h with ⟨l, hchain, hlog⟩
    exact ⟨⟨[], l, hchain, List.not_mem_nil, hchain.start, hlog⟩, rfl, .inl rfl⟩
  | insertScan r e => exact leads_insertScan hf hcode h
  | assign r a => exact leads_assign hf hcode h
  | create r => exact leads_create hf hcode h
  | link key a => exact leads_link hf hcode h
  | publish key a => exact leads_publish hf hcode h
  | lookupFirst key =>
    cases hcode
    cases hf
    rcases h with ⟨⟨l, hchain, hlog⟩, hreading⟩
    exact ⟨⟨[], l, hchain, List.not_mem_nil, hchain.start, hlog, hreading⟩, rfl, .inl rfl⟩
  | lookupScan key e => exact leads_lookupScan hf hcode h
  | fetch key a => exact leads_fetch hf hcode h
  | lookupReturn key result =>
    cases hcode
    cases hf
    exact ⟨trivial, rfl, .inl rfl⟩
  | crash => exact h.elim
  | insertLock r | insertUnlock key | lookupLock key | lookupUnlock key result => cases hcode

end Leads

/-! ## The outline -/

theorem lock_cases (hcode : code p = .lock m mark next) :
    (∃ r, p = .insertLock r ∧ m = hash r.key ∧ mark = record (.insert r.key r.value) ∧
      next = .insertFirst r) ∨
      ∃ key, p = .lookupLock key ∧ m = hash key ∧ mark = record (.lookup key) ∧
        next = .lookupFirst key := by
  cases p with
  | insertLock r =>
    cases hcode
    exact .inl ⟨r, rfl, rfl, rfl, rfl⟩
  | lookupLock key =>
    cases hcode
    exact .inr ⟨key, rfl, rfl, rfl, rfl⟩
  | insertScan r e | lookupScan key e => cases e <;> cases hcode
  | _ => cases hcode

/-- Where a thread gets a lock, and for which operation. -/
theorem lock_spec (hcode : code p = .lock m mark next) :
    within p = none ∧ within next = some m ∧ ∃ op, hash op.key = m ∧ mark = record op := by
  rcases lock_cases hcode with ⟨r, rfl, rfl, rfl, rfl⟩ | ⟨key, rfl, rfl, rfl, rfl⟩
  · exact ⟨rfl, rfl, _, rfl, rfl⟩
  · exact ⟨rfl, rfl, _, rfl, rfl⟩

theorem unlock_spec (hcode : code p = .unlock m next) (h : At th d p) :
    within p = some m ∧ within next = none ∧ Settled d m ∧ At th d next := by
  cases p with
  | insertUnlock key =>
    cases hcode
    exact ⟨rfl, rfl, h, trivial⟩
  | lookupUnlock key result =>
    cases hcode
    exact ⟨rfl, rfl, h.1, h.2⟩
  | insertScan r e | lookupScan key e => cases e <;> cases hcode
  | _ => cases hcode

/-- Every call is allowed. -/
def anyCall (_ : Nat) (_ : Call) (_ : HashMap) (_ : Pc) : Prop := True

def outline : Outline code anyCall where
  held p := (within p).toList
  inv _ := True
  res i d := Settled d i
  loc := At
  lock_loc hcode _ _ _ hsettled := by
    refine ⟨trivial, ?_⟩
    -- the lock hands over a settled chain; the log now has one operation more
    rcases lock_cases hcode with ⟨r, rfl, rfl, rfl, rfl⟩ | ⟨key, rfl, rfl, rfl, rfl⟩
    · rcases hsettled with ⟨l, hchain, hlog⟩
      exact ⟨l, hchain, after_record_insert hlog⟩
    · exact ⟨settled_record_lookup hsettled, reading_record⟩
  lock_held hcode _ m' := by
    rcases lock_spec hcode with ⟨hp, hnext, -⟩
    simp [hp, hnext]
  lock_res hcode _ _ _ hm' _ hsettled := by
    rcases lock_spec hcode with ⟨-, -, op, rfl, rfl⟩
    exact (keeps_record hm'.symm).settled hsettled
  lock_frame hcode _ _ _ hu hm _ hat := by
    rcases lock_spec hcode with ⟨-, -, op, rfl, rfl⟩
    -- the operation belongs to a bucket that `u` does not work on
    refine hat.frame (keepsTicket_record hu) fun i hi => keeps_record ?_
    rintro rfl
    exact hm (mem_toList.2 hi)
  unlock_loc hcode _ hat := (unlock_spec hcode hat).2.2
  unlock_held := by
    intro th d p m next hcode hat
    rcases unlock_spec hcode hat with ⟨hp, hnext, -⟩
    rw [hp, hnext]
    refine ⟨List.mem_singleton_self m, fun m' => ?_⟩
    simp [Option.toList, and_comm]
  act_loc hcode _ hf _ _ hat := ⟨trivial, (leads hf hcode hat).stands⟩
  act_held hcode hf hat m := by rw [(leads hf hcode hat).within]
  act_res hcode _ hf _ hat hm hsettled := by
    rcases (leads hf hcode hat).touches with rfl | ⟨m', hm', htouches⟩
    · exact hsettled
    · refine (htouches.keeps ?_).settled hsettled
      rintro rfl
      exact hm (mem_toList.2 hm')
  act_frame := by
    intro th i own d p f d' p' u q hcode _ hf _ hat _ hdisjoint _ hq
    rcases (leads hf hcode hat).touches with rfl | ⟨m, hm, htouches⟩
    · exact hq
    · refine hq.frame htouches.keepsTicket fun i hi => htouches.keeps ?_
      rintro rfl
      exact hdisjoint i (mem_toList.2 hm) (mem_toList.2 hi)

theorem outline_init : outline.Holds init := by
  refine Outline.Holds.start rfl trivial (fun i => ⟨[], ?_, rfl⟩) fun _ => trivial
  exact .empty _ _ _

theorem outline_run {as : List (Nat × Call)} {c : Config (Fin NUM_BUCKETS) HashMap Pc}
    (hrun : run code init as = some c) : outline.Holds c :=
  Outline.run_holds outline_init (meets_of_forall (fun _ _ _ _ => trivial) as init) hrun

end SystemsLab.LockedMap
