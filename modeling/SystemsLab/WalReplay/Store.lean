import SystemsLab.CLib.Scanf
import SystemsLab.Data.CallSequence
import SystemsLab.Data.KeyedList

/-!
# The store of `wal_replay_and_mem_reconstruction.c`

The records `db[0 .. db_size)` are a list.  A string that does not fit its field, and a `NULL` where
a string is copied, make an operation fail.  The messages are left out; `printDBSummary` is the list
of the pairs it prints.

`effect` is `applyOperation` on the list of the records, for calls that cannot fail.  The map that a
store shows is `shown`; INSERT, UPDATE and DELETE act on it as on a map from keys to values, except
that UPDATE also finds the record of a key that was deleted, and makes it valid again.
-/

namespace SystemsLab.WalReplay

open CallSequence KeyedList Scanf Option

def MAX_KEYS : Nat := 100

structure Record where
  key : CBuf 64
  value : CBuf 128
  valid : Bool
  deriving DecidableEq

def Record.name (r : Record) : CString := r.key.str

structure Db where
  records : List Record
  bounded : records.length ≤ MAX_KEYS
  deriving DecidableEq

namespace Db

def empty : Db := ⟨[], Nat.zero_le _⟩

theorem eq_of_records_eq {db db' : Db} (h : db.records = db'.records) : db = db' := by
  rcases db with ⟨records, hbound⟩
  cases h
  rfl

def change (db : Db) (key : CString) (f : Record → Record) : Db :=
  ⟨KeyedList.change Record.name key f db.records, by rw [length_change]; exact db.bounded⟩

/-- `db[db_size++] = r;` -/
def push (db : Db) (r : Record) (h : db.records.length < MAX_KEYS) : Db :=
  ⟨db.records ++ [r], by rw [List.length_append]; exact h⟩

end Db

/-! ## Operations -/

/-- `strcpy(db[found].value, val); db[found].valid = 1;` -/
def setValue (db : Db) (key : CString) (val : Option CString) : Option Db := do
  let value ← val.bind CBuf.strcpy
  some (db.change key fun r => { r with value := value, valid := true })

/-- The branch of `applyOperation` for `INSERT`. -/
def insert (db : Db) (key : CString) (val : Option CString) : Option Db :=
  match lookup Record.name key db.records with
  | none =>
    if h : db.records.length < MAX_KEYS then do
      let name ← CBuf.strcpy key
      let value ← val.bind CBuf.strcpy
      some (db.push ⟨name, value, true⟩ h)
    else some db
  | some _ => setValue db key val

def applyOperation (db : Db) (operation key : CString) (val : Option CString) : Option Db :=
  let found := lookup Record.name key db.records
  if operation = .ofLiteral "INSERT" then insert db key val
  else if operation = .ofLiteral "UPDATE" ∧ found ≠ none then setValue db key val
  else if operation = .ofLiteral "DELETE" ∧ found ≠ none then
    some (db.change key fun r => { r with valid := false })
  else some db

def printDBSummary (db : Db) : List (CString × CString) :=
  (db.records.filter Record.valid).map fun r => (r.key.str, r.value.str)

/-- The arguments of a call whose strings fit the fields of a record; an operation that copies its
value has one. -/
structure Call where
  operation : CString
  key : CBuf 64
  value : Option (CBuf 128)
  given : operation = .ofLiteral "INSERT" ∨ operation = .ofLiteral "UPDATE" → value ≠ none

def Call.apply (db : Db) (c : Call) : Option Db :=
  applyOperation db c.operation c.key.str (c.value.map CBuf.str)

/-! ## The log -/

/-- What `currentTimestamp` may return: `strftime` writes digits, `-`, `:` and a space. -/
structure Timestamp where
  text : CBuf 64
  ne_nil : text.str.bytes ≠ []
  noBracket : 93 ∉ text.str.bytes

/-- The text of `fprintf(wal, "[%s] %s %s %s\n", currentTimestamp(), operation, key, val ? val :
"NULL")`. -/
def logLine (now : Timestamp) (operation key : CString) (val : Option CString) : List UInt8 :=
  literal "[" ++ now.text.str.bytes ++ literal "] " ++ operation.bytes ++
    literal " " ++ key.bytes ++
    literal " " ++ (val.getD (.ofLiteral "NULL")).bytes ++ literal "\n"

/-- The log file, `none` if there is none, and the store in memory. -/
structure State where
  wal : Option (List UInt8)
  db : Db

def writeToWal (wal : Option (List UInt8)) (now : Timestamp) (operation key : CString)
    (val : Option CString) : Option (List UInt8) :=
  some (wal.getD [] ++ logLine now operation key val)

def commitOperation (s : State) (now : Timestamp) (operation key : CString) (val : Option CString) :
    Option State := do
  let wal := writeToWal s.wal now operation key val
  let db ← applyOperation s.db operation key val
  some ⟨wal, db⟩

/-- `"[%[^]]] %s %s %s\n"` with `timestamp[64]`, `op[16]`, `key[64]` and `value[128]`. -/
def replayFormat : List Directive :=
  [.char 91, .run (fun c => c ≠ 93) none 64, .char 93, .white, .word none 16, .white, .word none 64,
    .white, .word none 128, .white]

/-- The loop of `replay`.  A round reads at least one byte, so that there are at most `fuel` of
them. -/
def replayLoop : Nat → Db → List UInt8 → Option Db
  | 0, _, _ => none
  | fuel + 1, db, input => do
      let r ← scanf replayFormat input
      match r.args with
      | [_, op, key, value] =>
        let db ← applyOperation db op key
          (some (if value = .ofLiteral "NULL" then .empty else value))
        replayLoop fuel db r.rest
      | _ => some db

def replay (db : Db) : Option (List UInt8) → Option Db
  | none => some db
  | some wal => replayLoop (wal.length + 1) db wal

open List Function

/-! ## The effect of a call -/

inductive Op where
  | insert (value : CBuf 128)
  | update (value : CBuf 128)
  | delete
  | other

def Call.op (c : Call) : Op :=
  if c.operation = .ofLiteral "INSERT" then (c.value.map Op.insert).getD .other
  else if c.operation = .ofLiteral "UPDATE" then (c.value.map Op.update).getD .other
  else if c.operation = .ofLiteral "DELETE" then .delete
  else .other

def Record.assign (value : CBuf 128) (r : Record) : Record :=
  { r with value := value, valid := true }

def Record.remove (r : Record) : Record := { r with valid := false }

theorem name_assign (value : CBuf 128) (r : Record) : (r.assign value).name = r.name := rfl

theorem name_remove (r : Record) : r.remove.name = r.name := rfl

def names (records : List Record) : List CString := records.map Record.name

def effect (records : List Record) (c : Call) : List Record :=
  match c.op with
  | .insert value =>
    if c.key.str ∈ names records then change Record.name c.key.str (Record.assign value) records
    else if records.length < MAX_KEYS then records ++ [⟨c.key, value, true⟩]
    else records
  | .update value => change Record.name c.key.str (Record.assign value) records
  | .delete => change Record.name c.key.str Record.remove records
  | .other => records

variable {db : Db} {records : List Record} {c : Call} {key : CString}

theorem insert_spec (db : Db) (key : CBuf 64) (value : CBuf 128) :
    ∃ db', insert db key.str (some value.str) = some db' ∧
      db'.records = if key.str ∈ names db.records then
          change Record.name key.str (Record.assign value) db.records
        else if db.records.length < MAX_KEYS then db.records ++
          [⟨key, value, true⟩] else db.records := by
  cases hfind : lookup Record.name key.str db.records with
  | none =>
    have hnew : key.str ∉ names db.records := lookup_eq_none_iff.1 hfind
    by_cases hroom : db.records.length < MAX_KEYS
    · refine ⟨db.push ⟨key, value, true⟩ hroom, ?_, ?_⟩
      · simp [insert, hfind, hroom]
      · rw [if_neg hnew, if_pos hroom]
        rfl
    · refine ⟨db, ?_, ?_⟩
      · simp [insert, hfind, hroom]
      · rw [if_neg hnew, if_neg hroom]
  | some r =>
    have hold : key.str ∈ names db.records := by
      rcases mem_of_lookup hfind with ⟨hr, hname⟩
      exact mem_map.2 ⟨r, hr, hname⟩
    refine ⟨db.change key.str (Record.assign value), ?_, ?_⟩
    · simp only [insert, hfind, setValue, bind_some, CBuf.strcpy_str]
      rfl
    · rw [if_pos hold]
      rfl

theorem change_or_same (db : Db) (key : CString) (f : Record → Record) :
    (lookup Record.name key db.records ≠ none ∧
      (db.change key f).records = change Record.name key f db.records) ∨
      lookup Record.name key db.records = none ∧
        db.records = change Record.name key f db.records := by
  by_cases hfind : lookup Record.name key db.records = none
  · exact .inr ⟨hfind, (change_of_notMem f (lookup_eq_none_iff.1 hfind)).symm⟩
  · exact .inl ⟨hfind, rfl⟩

theorem apply_update {value : CBuf 128} (db : Db) (hop : c.operation = .ofLiteral "UPDATE")
    (hvalue : c.value = some value) : ∃ db', Call.apply db c = some db' ∧
      db'.records = change Record.name c.key.str (Record.assign value) db.records := by
  have hinsert : c.operation ≠ .ofLiteral "INSERT" := by
    rw [hop]
    decide
  rw [Call.apply, applyOperation, if_neg hinsert, hvalue]
  rcases change_or_same db c.key.str (Record.assign value)
    with ⟨hfound, hrecords⟩ | ⟨hnone, hrecords⟩
  · refine ⟨db.change c.key.str (Record.assign value), ?_, hrecords⟩
    rw [if_pos ⟨hop, hfound⟩]
    simp only [setValue, map_some, bind_some, CBuf.strcpy_str]
    rfl
  · refine ⟨db, ?_, hrecords⟩
    rw [if_neg fun h => h.2 hnone, if_neg fun h => h.2 hnone]

theorem apply_delete (db : Db) (hop : c.operation = .ofLiteral "DELETE") :
    ∃ db', Call.apply db c = some db' ∧
      db'.records = change Record.name c.key.str Record.remove db.records := by
  have hinsert : c.operation ≠ .ofLiteral "INSERT" := by
    rw [hop]
    decide
  have hupdate : c.operation ≠ .ofLiteral "UPDATE" := by
    rw [hop]
    decide
  rw [Call.apply, applyOperation, if_neg hinsert, if_neg fun h => hupdate h.1]
  rcases change_or_same db c.key.str Record.remove with ⟨hfound, hrecords⟩ | ⟨hnone, hrecords⟩
  · exact ⟨db.change c.key.str Record.remove, if_pos ⟨hop, hfound⟩, hrecords⟩
  · exact ⟨db, if_neg fun h => h.2 hnone, hrecords⟩

/-- No call fails, and `effect` is what it does. -/
theorem apply_spec (db : Db) (c : Call) : ∃ db', Call.apply db c = some db' ∧
    db'.records = effect db.records c := by
  by_cases hinsert : c.operation = .ofLiteral "INSERT"
  · rcases ne_none_iff_exists'.1 (c.given (.inl hinsert)) with ⟨value, hvalue⟩
    rcases insert_spec db c.key value with ⟨db', hrun, hrecords⟩
    refine ⟨db', ?_, ?_⟩
    · rw [Call.apply, applyOperation, if_pos hinsert, hvalue, map_some, hrun]
    · simp only [effect, Call.op, hinsert, hvalue, if_true]
      exact hrecords
  by_cases hupdate : c.operation = .ofLiteral "UPDATE"
  · rcases ne_none_iff_exists'.1 (c.given (.inr hupdate)) with ⟨value, hvalue⟩
    simp only [effect, Call.op, hupdate, hvalue, if_true]
    exact apply_update db hupdate hvalue
  by_cases hdelete : c.operation = .ofLiteral "DELETE"
  · simp only [effect, Call.op, hdelete]
    exact apply_delete db hdelete
  · refine ⟨db, ?_, ?_⟩
    · rw [Call.apply, applyOperation, if_neg hinsert, if_neg fun h => hupdate h.1,
        if_neg fun h => hdelete h.1]
    · simp [effect, Call.op, hinsert, hupdate, hdelete]

theorem runCalls_apply (db : Db) (calls : List Call) :
    ∃ db', runCalls Call.apply db calls = some db' ∧
      db'.records = calls.foldl effect db.records := by
  have hstep : ∀ (db : Db) (records : List Record) (c : Call), db.records = records →
      ∃ db', Call.apply db c = some db' ∧ db'.records = effect records c := by
    rintro db _ c rfl
    exact apply_spec db c
  exact runCalls_simulates effect (R := fun (db : Db) records => db.records = records)
    hstep rfl calls

theorem names_change {f : Record → Record} (hf : ∀ r, (f r).name = r.name) :
    names (change Record.name key f records) = names records :=
  map_change hf

theorem names_effect (records : List Record) (c : Call) : names (effect records c) = names records ∨
      c.key.str ∉ names records ∧ names (effect records c) = names records ++ [c.key.str] := by
  rw [effect]
  split
  · split
    · exact .inl (names_change fun _ => rfl)
    · rename_i hnew
      split
      · exact .inr ⟨hnew, map_append⟩
      · exact .inl rfl
  · exact .inl (names_change fun _ => rfl)
  · exact .inl (names_change fun _ => rfl)
  · exact .inl rfl

/-! ## The store as a map -/

/-- The value of a key that the store shows. -/
def shown (records : List Record) (key : CString) : Option CString :=
  (lookup Record.name key records).bind fun r => if r.valid then some r.value.str else none

/-- The map from keys to values: INSERT sets a key, UPDATE changes the value of a key that is
present, DELETE removes a key. -/
def mapEffect (m : CString → Option CString) (c : Call) : CString → Option CString :=
  match c.op with
  | .insert value => update m c.key.str (some value.str)
  | .update value => if m c.key.str = none then m else update m c.key.str (some value.str)
  | .delete => update m c.key.str none
  | .other => m

/-- The call does not update a deleted key. -/
def revivesNothing (db : Db) (c : Call) : Bool :=
  match c.op, lookup Record.name c.key.str db.records with
  | .update _, some r => r.valid
  | _, _ => true

theorem shown_change {f : Record → Record} (hf : ∀ r, (f r).name = r.name) (name : CString) :
    shown (change Record.name key f records) name = if name = key then
        (lookup Record.name key records).bind fun r =>
        if (f r).valid then some (f r).value.str else none
      else shown records name := by
  rcases eq_or_ne name key with rfl | hname
  · rw [shown, lookup_change_self hf, if_pos rfl, bind_map]
    rfl
  · rw [shown, lookup_change_of_ne hf hname, if_neg hname, shown]

variable {calls made : List Call}

/-- In a store with room for the key of the call, the call acts on the map that the store shows. -/
theorem shown_effect (hroom : c.key.str ∉ names db.records → db.records.length < MAX_KEYS)
    (hok : revivesNothing db c) : shown (effect db.records c) = mapEffect (shown db.records) c := by
  funext name
  rw [effect, mapEffect]
  cases hop : c.op with
  | insert value =>
    simp only [update_apply]
    by_cases hold : c.key.str ∈ names db.records
    · rcases exists_lookup hold with ⟨r, hr⟩
      rw [if_pos hold, shown_change (name_assign value), hr]
      rfl
    · rw [if_neg hold, if_pos (hroom hold), shown, lookup_push]
      by_cases hname : name = c.key.str
      · rw [hname, lookup_eq_none_iff.2 hold, if_pos rfl, none_or]
        simp [Record.name]
      · have hne : Record.name ⟨c.key, value, true⟩ ≠ name := Ne.symm hname
        rw [if_neg hname, if_neg hne, or_none, shown]
  | update value =>
    simp only
    rw [shown_change (name_assign value)]
    cases hfind : lookup Record.name c.key.str db.records with
    | none =>
      have hnone : shown db.records c.key.str = none := by rw [shown, hfind, bind_none]
      split_ifs with hname
      · rw [hname, hnone, bind_none]
      · rfl
    | some r =>
      -- the record that is found is valid
      have hvalid : r.valid = true := by simpa [revivesNothing, hop, hfind] using hok
      have hsome : shown db.records c.key.str ≠ none := by simp [shown, hfind, hvalid]
      rw [if_neg hsome, update_apply]
      rfl
  | delete =>
    simp only [update_apply]
    rw [shown_change name_remove]
    split
    · cases lookup Record.name c.key.str db.records with
      | none => rfl
      | some r => rfl
    · rfl
  | other => rfl

theorem mem_printDBSummary (hnodup : (names db.records).Nodup) {value : CString} :
    (key, value) ∈ printDBSummary db ↔ shown db.records key = some value := by
  rw [printDBSummary, List.mem_map, shown, bind_eq_some_iff]
  constructor
  · rintro ⟨r, hr, heq⟩
    rcases mem_filter.1 hr with ⟨hmem, hvalid⟩
    rcases heq with ⟨rfl, rfl⟩
    have hname : r.name ∈ db.records.map Record.name := mem_map_of_mem hmem
    rcases exists_lookup hname with ⟨r', hr'⟩
    rcases mem_of_lookup hr' with ⟨hmem', hsame⟩
    obtain rfl := inj_on_of_nodup_map hnodup hmem' hmem hsame
    exact ⟨r', hr', if_pos hvalid⟩
  · rintro ⟨r, hr, hvalue⟩
    rcases mem_of_lookup hr with ⟨hmem, rfl⟩
    split at hvalue
    · rename_i hvalid
      cases hvalue
      exact ⟨r, mem_filter.2 ⟨hmem, hvalid⟩, rfl⟩
    · cases hvalue

/-- The store shows the map of the calls made; its keys are keys of the calls. -/
structure Shows (calls : List Call) (db : Db) (made : List Call) : Prop where
  map : shown db.records = made.foldl mapEffect fun _ => none
  nodup : (names db.records).Nodup
  named : names db.records ⊆ calls.map fun c => c.key.str

theorem Shows.room (h : Shows calls db made)
    (hkeys : (calls.map fun c => c.key.str).toFinset.card ≤ MAX_KEYS) (hc : c ∈ calls)
    (hnew : c.key.str ∉ names db.records) : db.records.length < MAX_KEYS := by
  have hmem : c.key.str ∈ calls.map fun c => c.key.str := mem_map_of_mem hc
  have hsub : (c.key.str :: names db.records).toFinset ⊆ (calls.map fun c =>
    c.key.str).toFinset := by
    intro name hname
    rw [List.mem_toFinset] at hname ⊢
    rcases mem_cons.1 hname with rfl | hname
    · exact hmem
    · exact h.named hname
  have hcard := Finset.card_le_card hsub
  rw [toFinset_card_of_nodup (nodup_cons.2 ⟨hnew, h.nodup⟩), length_cons, names,
    length_map] at hcard
  omega

theorem Shows.apply (h : Shows calls db made)
    (hkeys : (calls.map fun c => c.key.str).toFinset.card ≤ MAX_KEYS) (hc : c ∈ calls)
    (hok : revivesNothing db c) :
    ∃ db', Call.apply db c = some db' ∧ Shows calls db' (made ++ [c]) := by
  rcases apply_spec db c with ⟨db', hrun, hrecords⟩
  refine ⟨db', hrun, ?_, ?_, ?_⟩
  · rw [hrecords, shown_effect (h.room hkeys hc) hok, foldl_append, h.map]
    rfl
  · rw [hrecords]
    rcases names_effect db.records c with hsame | ⟨hnew, hadd⟩
    · rw [hsame]
      exact h.nodup
    · rw [hadd]
      simpa using h.nodup.concat hnew
  · rw [hrecords]
    rcases names_effect db.records c with hsame | ⟨-, hadd⟩
    · rw [hsame]
      exact h.named
    · rw [hadd, append_subset]
      refine ⟨h.named, fun name hname => ?_⟩
      rw [mem_singleton] at hname
      rw [hname]
      exact mem_map_of_mem hc

/-- As long as no deleted key is updated, the store shows the map of its calls. -/
theorem store_is_map (calls : List Call)
    (hkeys : (calls.map fun c => c.key.str).toFinset.card ≤ MAX_KEYS)
    (hok : guarded Call.apply revivesNothing .empty calls) :
    ∃ db, runCalls Call.apply .empty calls = some db ∧
      ∀ key value, (key, value) ∈ printDBSummary db ↔
        calls.foldl mapEffect (fun _ => none) key = some value := by
  have hstep : ∀ (db : Db) (made : List Call), ∀ c ∈ calls, Shows calls db made →
      revivesNothing db c → ∃ db', Call.apply db c = some db' ∧ Shows calls db' (made ++ [c]) :=
    fun db made c hc h hok => h.apply hkeys hc hok
  have hempty : Shows calls .empty [] := ⟨rfl, nodup_nil, nil_subset _⟩
  rcases runCalls_guarded hstep hempty hok with ⟨db, hrun, hshows⟩
  refine ⟨db, hrun, fun key value => ?_⟩
  rw [mem_printDBSummary hshows.nodup, hshows.map]

/-! ### Single calls -/

def insertCall (key : CBuf 64) (value : CBuf 128) : Call :=
  ⟨.ofLiteral "INSERT", key, some value, fun _ => Option.some_ne_none value⟩

def updateCall (key : CBuf 64) (value : CBuf 128) : Call :=
  ⟨.ofLiteral "UPDATE", key, some value, fun _ => Option.some_ne_none value⟩

def deleteCall (key : CBuf 64) : Call :=
  ⟨.ofLiteral "DELETE", key, none, fun h => absurd h (by decide)⟩

def keyK : CBuf 64 := ⟨.ofLiteral "k", by decide⟩

def valueA : CBuf 128 := ⟨.ofLiteral "a", by decide⟩

def valueB : CBuf 128 := ⟨.ofLiteral "b", by decide⟩

-- An update without a record, one of a valid record, and an insertion after a deletion.
theorem store_is_map_reinserted :
    ∃ db, runCalls Call.apply .empty [updateCall keyK valueA, insertCall keyK valueA,
        updateCall keyK valueB, deleteCall keyK, insertCall keyK valueA] = some db ∧
      ∀ key value, (key, value) ∈ printDBSummary db ↔
        [updateCall keyK valueA, insertCall keyK valueA, updateCall keyK valueB, deleteCall keyK,
          insertCall keyK valueA].foldl mapEffect (fun _ => none) key = some value :=
  store_is_map _ (by decide) (by decide +kernel)

/-- An update of a deleted key brings the key back. -/
theorem update_revives_deleted : (runCalls Call.apply .empty
        [insertCall keyK valueA, deleteCall keyK, updateCall keyK valueB]).map printDBSummary =
        some [(keyK.str, valueB.str)] ∧
      [insertCall keyK valueA, deleteCall keyK, updateCall keyK valueB].foldl mapEffect
        (fun _ => none) keyK.str = none := by
  decide +kernel

end SystemsLab.WalReplay
