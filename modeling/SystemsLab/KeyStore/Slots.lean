import SystemsLab.Data.CallSequence
import SystemsLab.Data.Probing
import SystemsLab.KeyStore.KeyTable

/-!
# When a slot of the store stands for a key

A slot keeps the first `MAX_KEY_LEN - 1` bytes of its key and is compared with a whole key, so a
longer key is never found again and gets a new slot each time (`long_key_gets_two_slots`).  A key
that is the beginning of a longer one may be taken for it.

* `SlotCall` — the calls of `get_or_create_key`: those of `txn_write` and `txn_read` of one
  transaction, and those of anybody else.
-/

namespace SystemsLab.KeyStore

open CallSequence List Function Option
open Probing (Cell Reachable Distinct Before)

/-! ## Calls -/

inductive SlotCall where
  /-- get: by another transaction -/
  | get (key : CString)
  | write (key value : CString)
  | read (key : CString)
  deriving DecidableEq

def SlotCall.key : SlotCall → CString
  | .get key | .write key _ | .read key => key

/-- The key column, the local writes of a transaction, the slots that were returned, and what
`find_local_write` found for the reads of the transaction. -/
structure SlotSession where
  keys : KeyTable
  writes : List WriteEntry
  returned : List (CString × Slot)
  found : List (Option Value)

def SlotSession.init : SlotSession := ⟨fun _ => none, [], [], []⟩

/-- A call with the slot that `get_or_create_key` returns. -/
def SlotSession.withSlot (s : SlotSession) (c : SlotCall) (idx : Slot) : SlotSession where
  keys := useSlot s.keys c.key idx
  returned := s.returned ++ [(c.key, idx)]
  writes :=
    match c with
    | .write _ value => putWrite s.writes idx (CBuf.copy value)
    | _ => s.writes
  found :=
    match c with
    | .read _ => s.found ++ [(findLocalWrite s.writes idx).map WriteEntry.value]
    | _ => s.found

/-- A full store ends the process. -/
def slotCall (s : SlotSession) (c : SlotCall) : Option SlotSession :=
  (keySlot s.keys c.key).map fun idx => s.withSlot c idx

def written (calls : List SlotCall) : CString → Option CString :=
  calls.foldl
    (fun w c =>
      match c with
      | .write key value => update w key (some value)
      | _ => w)
    fun _ => none

/-- What the reads have to find. -/
def localReads : List SlotCall → List SlotCall → List (Option Value)
  | _, [] => []
  | made, .read key :: calls => (written made key).map CBuf.copy ::
    localReads (made ++ [.read key]) calls
  | made, c :: calls => localReads (made ++ [c]) calls

/-! ## The loop -/

variable {keys : KeyTable} {k k' : CString}

/-- A slot is found by the text in it, which is never that of a long key. -/
theorem strncmpEq_copy : (CBuf.copy k' : Key).str.strncmpEq k MAX_KEY_LEN = true ↔
    (CBuf.copy k' : Key).str = k := by
  have hfits := (CBuf.copy k' : Key).fits
  rw [CString.strncmpEq, decide_eq_true_eq, take_of_length_le hfits.le]
  constructor
  · intro heq
    have hlen := congrArg List.length heq
    rw [length_take] at hlen
    have hshort : k.bytes.length ≤ MAX_KEY_LEN := by omega
    rw [take_of_length_le hshort] at heq
    cases h : (CBuf.copy k' : Key).str with
    | mk stored hstored =>
      rw [h] at heq
      cases heq
      rfl
  · rintro heq
    rw [← heq, take_of_length_le hfits.le]

theorem probe_eq (keys : KeyTable) (k : CString) (steps : Nat) (i : Slot) :
    probe keys k steps i = Probing.probe
      (fun i => (keys i).all fun key => key.str.strncmpEq k MAX_KEY_LEN) steps i := by
  induction steps generalizing i with
  | zero => rfl
  | succ steps ih =>
    rw [probe, Probing.probe, ih]
    cases keys i with
    | none => rfl
    | some key => rfl

/-! ## Slots and their keys -/

theorem neZeroMaxKeyLen : NeZero MAX_KEY_LEN := ⟨by decide⟩

def stored (k : CString) : CString := (@CBuf.copy MAX_KEY_LEN neZeroMaxKeyLen k).str

theorem stored_of_short (h : k.bytes.length < MAX_KEY_LEN) : stored k = k := CBuf.str_copy h

/-- Every long key occurs once, and its beginning is not a key. -/
def Apart (ks : List CString) : Prop :=
  ∀ k ∈ ks, MAX_KEY_LEN ≤ k.bytes.length → ks.count k = 1 ∧ stored k ∉ ks

instance decidableApart (ks : List CString) : Decidable (Apart ks) := by
  unfold Apart
  infer_instance

/-- What the store looks like if `owner i` is the key that slot `i` was made for. -/
def cells (owner : Slot → Option CString) (i : Slot) : Cell CString :=
  match owner i with
  | none => .empty
  | some k => .key k

variable {owner : Slot → Option CString} {i p : Slot} {made rest : List SlotCall}

theorem cells_eq_empty : cells owner i = .empty ↔ owner i = none := by
  unfold cells
  cases owner i with
  | none => simp
  | some k => simp

theorem cells_eq_key : cells owner i = .key k ↔ owner i = some k := by
  unfold cells
  cases owner i with
  | none => simp
  | some k => simp

theorem cells_update : cells (update owner p (some k)) = update (cells owner) p (.key k) := by
  funext i
  by_cases hi : i = p
  · rw [hi, cells, update_self, update_self]
  · rw [cells, update_of_ne hi, update_of_ne hi, cells]

structure Owned (s : SlotSession) (owner : Slot → Option CString) (made : List SlotCall) :
    Prop where
  keys : ∀ i, s.keys i = (owner i).map CBuf.copy
  reachable : Reachable hashKey (cells owner)
  distinct : Distinct (cells owner)
  owners : ∀ i k, owner i = some k → k ∈ made.map SlotCall.key
  returned : ∀ r ∈ s.returned, owner r.2 = some r.1
  called : s.returned.map Prod.fst = made.map SlotCall.key
  writes : ∀ i, findLocalWrite s.writes i =
    ((owner i).bind (written made)).map fun value => ⟨i, CBuf.copy value⟩
  unwritten : ∀ k, (∀ i, owner i ≠ some k) → written made k = none

variable {ks : List CString}

/-- A slot is found exactly by the key that it was made for. -/
theorem Apart.stored_eq_iff (h : Apart ks) (hk' : k' ∈ ks) (hk : k ∈ ks)
    (hlong : MAX_KEY_LEN ≤ k.bytes.length → k' ≠ k) : stored k' = k ↔ k' = k := by
  rcases lt_or_ge k'.bytes.length MAX_KEY_LEN with hshort | hlong'
  · rw [stored_of_short hshort]
  · constructor
    · intro heq
      exact absurd (heq ▸ hk) (h k' hk' hlong').2
    · rintro rfl
      exact absurd rfl (hlong hlong')

theorem init_owned : Owned SlotSession.init (fun _ => none) [] where
  keys _ := rfl
  reachable := fun _ _ hj => by cases hj
  distinct := fun _ _ _ hi => by cases hi
  owners := nofun
  returned := nofun
  called := rfl
  writes _ := rfl
  unwritten _ _ := rfl

variable {s : SlotSession} {c : SlotCall}

theorem Owned.keySlot_eq (h : Owned s owner made) (hapart : Apart ks)
    (hsub : made.map SlotCall.key ⊆ ks) (hk : k ∈ ks)
    (hlong : MAX_KEY_LEN ≤ k.bytes.length → k ∉ made.map SlotCall.key) :
    keySlot s.keys k = Probing.probe (fun i => cells owner i = .empty ∨
      cells owner i = .key k) MAX_KEYS
      (hashKey k) := by
  rw [keySlot, probe_eq]
  congr 1
  funext i
  rw [h.keys i, Bool.eq_iff_iff, decide_eq_true_eq, cells_eq_empty, cells_eq_key]
  cases howner : owner i with
  | none => simp
  | some k' =>
    have hk' := h.owners i k' howner
    have hiff := hapart.stored_eq_iff (hsub hk') hk fun hl heq => hlong hl (heq ▸ hk')
    simp only [map_some, all_some, strncmpEq_copy, reduceCtorEq, some.injEq, false_or]
    exact hiff

theorem Owned.exists_slot (h : Owned s owner made) (hsub : made.map SlotCall.key ⊆ ks)
    (hk : k ∈ ks) (hroom : ks.toFinset.card ≤ MAX_KEYS) :
    ∃ p, Probing.probe (fun i => cells owner i = .empty ∨ cells owner i = .key k) MAX_KEYS
      (hashKey k) = some p := by
  rw [← ne_none_iff_exists', Ne, Probing.probe_eq_none_iff]
  intro hfull
  have hother : ∀ i, ∃ k', owner i = some k' ∧ k' ≠ k := by
    intro i
    have hi := of_decide_eq_false (hfull i)
    rw [not_or, cells_eq_empty, cells_eq_key] at hi
    rcases ne_none_iff_exists'.1 hi.1 with ⟨k', hk'⟩
    exact ⟨k', hk', fun heq => hi.2 (heq ▸ hk')⟩
  choose key hkey hne using hother
  have hinj : Function.Injective key := fun i j hij =>
    h.distinct (key i) i j (cells_eq_key.2 (hkey i)) (cells_eq_key.2 (hij ▸ hkey j))
  -- as many keys as slots, and one more
  have hcard : (Finset.univ.map ⟨key, hinj⟩).card < ks.toFinset.card := by
    apply Finset.card_lt_card
    refine (Finset.ssubset_iff_of_subset ?_).2 ⟨k, mem_toFinset.2 hk, ?_⟩
    · intro x hx
      rcases Finset.mem_map.1 hx with ⟨i, -, rfl⟩
      exact mem_toFinset.2 (hsub (h.owners i _ (hkey i)))
    · intro hx
      rcases Finset.mem_map.1 hx with ⟨i, -, heq⟩
      exact hne i heq
  rw [Finset.card_map, Finset.card_univ, Fintype.card_fin] at hcard
  omega

theorem Owned.slot_spec (h : Owned s owner made)
    (hp : Probing.probe (fun i => cells owner i = .empty ∨ cells owner i = .key k) MAX_KEYS
      (hashKey k) = some p) :
    (owner p = none ∨ owner p = some k) ∧
      (∀ i, Before (hashKey k) i p → cells owner i ≠ .empty ∧ cells owner i ≠ .key k) ∧
      ∀ j, cells owner j = .key k → j = p := by
  rcases Probing.probe_eq_some_iff.1 hp with ⟨hat, hbefore⟩
  have hat' := of_decide_eq_true hat
  have hbefore' : ∀ i, Before (hashKey k) i p →
    cells owner i ≠ .empty ∧ cells owner i ≠ .key k := by
    intro i hi
    have hpassed := of_decide_eq_false (hbefore i hi)
    rwa [not_or] at hpassed
  refine ⟨?_, hbefore', fun j hj => ?_⟩
  · rwa [cells_eq_empty, cells_eq_key] at hat'
  · rcases hat' with hempty | hkey
    · by_contra hne
      rcases Probing.before_or_before (hashKey k) hne with hlt | hlt
      · exact (hbefore' j hlt).2 hj
      · exact h.reachable k j hj p hlt hempty
    · exact h.distinct k j p hj hkey

theorem written_concat (made : List SlotCall) (c : SlotCall) : written (made ++ [c]) = match c with
      | .write key value => update (written made) key (some value) | _ => written made := by
  rw [written, foldl_append]
  rfl

/-- A slot in use keeps its key, and the returned one has the key of the call. -/
theorem owner_update (hp : owner p = none ∨ owner p = some k) (h : owner i = some k') :
    update owner p (some k) i = some k' := by
  by_cases hi : i = p
  · rw [hi] at h ⊢
    rw [update_self]
    rcases hp with hnone | hsome
    · rw [hnone] at h
      cases h
    · rw [← h, hsome]
  · rwa [update_of_ne hi]

theorem Owned.useSlot_eq (h : Owned s owner made) (hp : owner p = none ∨ owner p = some k)
    (i : Slot) :
    useSlot s.keys k p i = (update owner p (some k) i).map CBuf.copy := by
  have hkeys := h.keys p
  rcases hp with hnone | hsome
  · rw [hnone, map_none] at hkeys
    simp only [useSlot, hkeys]
    by_cases hi : i = p
    · rw [hi, update_self, update_self, map_some]
    · rw [update_of_ne hi, update_of_ne hi, h.keys]
  · rw [hsome, map_some] at hkeys
    simp only [useSlot, hkeys]
    rw [← hsome, update_eq_self, h.keys]

theorem Owned.findLocalWrite_withSlot (h : Owned s owner made)
    (hp : owner p = none ∨ owner p = some c.key)
    (honly : ∀ j, cells owner j = .key c.key → j = p) (i : Slot) :
    findLocalWrite (s.withSlot c p).writes i =
      ((update owner p (some c.key) i).bind (written (made ++ [c]))).map fun value =>
      ⟨i, CBuf.copy value⟩ := by
  -- a slot that was not in use has no local write, and its key has none
  have hold : findLocalWrite s.writes i =
      ((update owner p (some c.key) i).bind (written made)).map fun value =>
        ⟨i, CBuf.copy value⟩ := by
    rw [h.writes i]
    by_cases hi : i = p
    · rw [hi, update_self]
      rcases hp with hnone | hsome
      · have hnew : written made c.key = none := by
          refine h.unwritten c.key fun j hj => ?_
          rw [honly j (cells_eq_key.2 hj), hnone] at hj
          cases hj
        rw [hnone, bind_none, bind_some, hnew]
      · rw [hsome]
    · rw [update_of_ne hi]
  rw [written_concat]
  cases c with
  | get key => exact hold
  | read key => exact hold
  | write key value =>
    simp only [SlotSession.withSlot, findLocalWrite_putWrite]
    split_ifs with hi
    · rw [hi, update_self, bind_some, SlotCall.key, update_self]
      rfl
    · rw [h.writes i, update_of_ne hi]
      cases howner : owner i with
      | none => rfl
      | some k' =>
        have hk' : k' ≠ key := by
          rintro rfl
          exact hi (honly i (cells_eq_key.2 howner))
        rw [bind_some, bind_some, update_of_ne hk']

theorem Owned.withSlot (h : Owned s owner made)
    (hp : Probing.probe (fun i => cells owner i = .empty ∨ cells owner i = .key c.key) MAX_KEYS
      (hashKey c.key) = some p) : Owned (s.withSlot c p) (update owner p (some c.key))
        (made ++ [c]) := by
  rcases h.slot_spec hp with ⟨hslot, hbefore, honly⟩
  refine ⟨h.useSlot_eq hslot, ?_, ?_, fun i k hi => ?_, fun r hr => ?_, ?_,
    h.findLocalWrite_withSlot hslot honly, fun k hk => ?_⟩
  · rw [cells_update]
    exact h.reachable.put fun i hi => (hbefore i hi).1
  · rw [cells_update]
    exact h.distinct.put honly
  · rw [map_append, mem_append]
    by_cases hip : i = p
    · rw [hip, update_self, some.injEq] at hi
      exact .inr (hi ▸ mem_singleton_self _)
    · rw [update_of_ne hip] at hi
      exact .inl (h.owners i k hi)
  · rcases mem_append.1 hr with hr | hr
    · exact owner_update hslot (h.returned r hr)
    · rw [mem_singleton.1 hr, update_self]
  · simp [SlotSession.withSlot, h.called]
  · have hne : k ≠ c.key := by
      rintro rfl
      exact hk p (update_self ..)
    have hold : written made k = none := h.unwritten k fun i hi => hk i (owner_update hslot hi)
    rw [written_concat]
    cases c with
    | get key => exact hold
    | read key => exact hold
    | write key value => exact (update_of_ne hne _ _).trans hold

/-! ## Sequences of calls -/

/-- What a read finds locally is the last value that was written to its key. -/
theorem Owned.found_withSlot (h : Owned s owner made)
    (hp : Probing.probe (fun i => cells owner i = .empty ∨ cells owner i = .key c.key) MAX_KEYS
      (hashKey c.key) = some p) :
    (s.withSlot c p).found ++ localReads (made ++ [c]) rest = s.found ++
    localReads made (c :: rest) := by
  cases c with
  | get key => rfl
  | write key value => rfl
  | read key =>
    have hread := (h.withSlot hp).writes p
    rw [update_self, written_concat] at hread
    have hlocal : (findLocalWrite s.writes p).map WriteEntry.value =
      (written made key).map CBuf.copy := by
      have hwrites : findLocalWrite s.writes p = _ := hread
      rw [hwrites, Option.map_map]
      rfl
    simp [SlotSession.withSlot, localReads, hlocal]

theorem exists_owned (calls : List SlotCall)
    (hroom : (calls.map SlotCall.key).toFinset.card ≤ MAX_KEYS)
    (hapart : Apart (calls.map SlotCall.key)) :
    ∃ s owner, runCalls slotCall SlotSession.init calls = some s ∧ Owned s owner calls ∧
      s.found = localReads [] calls := by
  have hstep : ∀ s made c rest, (made ++ c :: rest = calls ∧ ∃ owner, Owned s owner made ∧
      s.found ++ localReads made (c :: rest) = localReads [] calls) →
      ∃ s', slotCall s c = some s' ∧
        (made ++ [c] ++ rest = calls ∧ ∃ owner, Owned s' owner (made ++ [c]) ∧
        s'.found ++ localReads (made ++ [c]) rest = localReads [] calls) := by
    rintro s made c rest ⟨rfl, owner, h, hfound⟩
    have hkeys : (made ++ c :: rest).map SlotCall.key =
        made.map SlotCall.key ++ c.key :: rest.map SlotCall.key := by rw [map_append, map_cons]
    rw [hkeys] at hroom hapart
    have hk : c.key ∈ made.map SlotCall.key ++ c.key :: rest.map SlotCall.key := by simp
    have hsub := subset_append_left (made.map SlotCall.key) (c.key :: rest.map SlotCall.key)
    -- a long key was not used before
    have hlong : MAX_KEY_LEN ≤ c.key.bytes.length → c.key ∉ made.map SlotCall.key := by
      intro hl hmem
      have hcount := (hapart c.key hk hl).1
      rw [count_append, count_cons_self] at hcount
      have hpos := count_pos_iff.2 hmem
      omega
    rcases h.exists_slot hsub hk hroom with ⟨p, hp⟩
    refine ⟨s.withSlot c p, ?_, by simp, _, h.withSlot hp, (h.found_withSlot hp).trans hfound⟩
    rw [slotCall, h.keySlot_eq hapart hsub hk hlong, hp, map_some]
  rcases runCalls_along (R := fun s made rest => made ++ rest = calls ∧ ∃ owner,
    Owned s owner made ∧
    s.found ++ localReads made rest = localReads [] calls) hstep calls
    ⟨rfl, _, init_owned, rfl⟩ with ⟨s, hs, -, owner, h, hfound⟩
  refine ⟨s, owner, hs, h, ?_⟩
  simpa [localReads] using hfound

/-- At most `MAX_KEYS` keys, of which the long ones occur once and their beginnings do not occur: no
call finds the store full, calls with the same key return the same slot and calls with different
keys different ones, and `txn_read` finds the last value that its transaction has written to the
key. -/
theorem slots_identify_keys (calls : List SlotCall)
    (hroom : (calls.map SlotCall.key).toFinset.card ≤ MAX_KEYS)
    (hapart : Apart (calls.map SlotCall.key)) :
    ∃ s, runCalls slotCall SlotSession.init calls = some s ∧
      s.returned.map Prod.fst = calls.map SlotCall.key ∧
      (∀ r ∈ s.returned, ∀ r' ∈ s.returned, r.1 = r'.1 ↔ r.2 = r'.2) ∧
      s.found = localReads [] calls := by
  rcases exists_owned calls hroom hapart with ⟨s, owner, hs, h, hfound⟩
  refine ⟨s, hs, h.called, fun r hr r' hr' => ⟨fun hkey => ?_, fun hslot => ?_⟩, hfound⟩
  · have hr1 := cells_eq_key.2 (h.returned r hr)
    rw [hkey] at hr1
    exact h.distinct r'.1 _ _ hr1 (cells_eq_key.2 (h.returned r' hr'))
  · have hr1 := h.returned r hr
    rw [hslot, h.returned r' hr'] at hr1
    exact (some.inj hr1).symm

def longKey : CString := .ofBytes (List.replicate 64 97)

-- Colliding keys, a key of 64 bytes that occurs once, and a transaction that reads its own writes.
theorem slots_identify_keys_demo : ∃ s, runCalls slotCall SlotSession.init
        [.write bracketKey valueX, .get longKey, .get backslashKey, .write bracketKey valueY,
          .read bracketKey, .read backslashKey] = some s ∧
      s.returned.map Prod.fst = [bracketKey, longKey, backslashKey, bracketKey, bracketKey,
        backslashKey] ∧
      (∀ r ∈ s.returned, ∀ r' ∈ s.returned, r.1 = r'.1 ↔ r.2 = r'.2) ∧
      s.found = [some (CBuf.copy valueY), none] :=
  slots_identify_keys [.write bracketKey valueX, .get longKey, .get backslashKey,
    .write bracketKey valueY,
    .read bracketKey, .read backslashKey] (by decide +kernel) (by decide +kernel)

/-- Two calls with one long key return different slots, and a read does not find its write. -/
theorem long_key_gets_two_slots :
    (runCalls slotCall SlotSession.init [.write longKey valueX, .read longKey]).map
        (fun s => (s.returned.map Prod.snd, s.found)) =
        some ([hashKey longKey, hashKey longKey + 1], [none]) ∧
      localReads [] [.write longKey valueX, .read longKey] = [some (CBuf.copy valueX)] := by
  decide +kernel

end SystemsLab.KeyStore
