import SystemsLab.WalReplay.Store

/-!
# Reading the log back

A line of the log is four words behind a time stamp, and `replay` reads it with `%s`.  Keys and
values without white space come back as they were written (`scan_logLine`); any white space in them,
or an empty one, shifts the words of the line.  The word `NULL` stands for the missing value of a
DELETE, and a value that reads the same is taken for one.

A run from the empty store and a run of the same calls from the store that they led to go side by
side: the records of the first are always an initial part of the records of the second
(`effect_follows`).  The second run has all keys from the start and adds none, so that both end with
the same records.
-/

namespace SystemsLab.WalReplay

open CallSequence KeyedList Scanf List Option

/-- A call of `commitOperation` and the time it is made at. -/
structure Commit where
  now : Timestamp
  operation : CString
  key : CBuf 64
  value : Option (CBuf 128)
  shape : (operation = .ofLiteral "INSERT" ∨ operation = .ofLiteral "UPDATE") ∧ value ≠ none ∨
    operation = .ofLiteral "DELETE" ∧ value = none

namespace Commit

def run (s : State) (c : Commit) : Option State :=
  commitOperation s c.now c.operation c.key.str (c.value.map CBuf.str)

def call (c : Commit) : Call where
  operation := c.operation
  key := c.key
  value := c.value
  given hop := by
    rcases c.shape with ⟨-, hvalue⟩ | ⟨hdelete, -⟩
    · exact hvalue
    · rw [hdelete] at hop
      exact absurd hop (by decide)

def line (c : Commit) : List UInt8 :=
  logLine c.now c.operation c.key.str (c.value.map CBuf.str)

end Commit

/-- The key and the value are read back as they were written. -/
def Commit.plain (c : Commit) : Bool :=
  isWord c.key.str && c.value.all fun value => isWord value.str && value.str ≠ .ofLiteral "NULL"

section Replay

variable {c : Commit} {calls : List Commit} {rest : List UInt8}

/-- A line of words is read back, and the next line is the rest. -/
theorem scan_logLine (now : Timestamp) {operation key value : CString} (hop : isWord operation)
    (hopLength : operation.bytes.length < 16) (hkey : isWord key)
    (hkeyLength : key.bytes.length < 64)
    (hvalue : isWord value) (hvalueLength : value.bytes.length < 128) (hrest : Stops isSpace rest) :
    scanf replayFormat (logLine now operation key (some value) ++ rest) =
      some ⟨[now.text.str, operation, key, value], rest⟩ := by
  have hline : logLine now operation key (some value) ++ rest =
      91 :: (now.text.str.bytes ++ 93 :: ([32] ++ (operation.bytes ++ ([32] ++ (key.bytes ++
        ([32] ++ (value.bytes ++ ([10] ++ rest)))))))) := by simp [logLine, literal]
  have hspace : isSpace 32 := by decide
  have hend : isSpace 10 := by decide
  have hwidth : ∀ s : CString, ∀ w ∈ (none : Option Nat), s.bytes.length ≤ w := by
    nofun
  have hstamp : ∀ c ∈ now.text.str.bytes, decide (c ≠ 93) = true := by
    intro c hc
    exact decide_eq_true fun heq => now.noBracket (heq ▸ hc)
  rw [hline, replayFormat, scanf_char,
    scanf_run now.ne_nil hstamp (hwidth _) now.text.fits (stops_cons (by decide)), scanf_char,
    scanf_white hspace (stops_word hop),
    scanf_word hop (hwidth _) hopLength (stops_space (by decide)),
    scanf_white hspace (stops_word hkey),
    scanf_word hkey (hwidth _) hkeyLength (stops_space (by decide)),
    scanf_white hspace (stops_word hvalue),
    scanf_word hvalue (hwidth _) hvalueLength (stops_space (by decide)), scanf_white hend hrest]
  rfl

theorem stops_lines (calls : List Commit) : Stops isSpace (calls.flatMap Commit.line) := by
  cases calls with
  | nil => exact stops_nil
  | cons c calls =>
    exact stops_cons (by decide)

theorem replayLoop_logLine (now : Timestamp) {operation key value : CString}
    (hop : isWord operation) (hopLength : operation.bytes.length < 16) (hkey : isWord key)
    (hkeyLength : key.bytes.length < 64)
    (hvalue : isWord value) (hvalueLength : value.bytes.length < 128) (hrest : Stops isSpace rest)
    (fuel : Nat) (db : Db) :
    replayLoop (fuel + 1) db (logLine now operation key (some value) ++ rest) =
      (applyOperation db operation key
        (some (if value = .ofLiteral "NULL" then .empty else value))).bind fun db =>
          replayLoop fuel db rest := by
  simp [replayLoop, scan_logLine now hop hopLength hkey hkeyLength hvalue hvalueLength hrest]

theorem applyOperation_delete (db : Db) (key : CString) (val val' : Option CString) :
    applyOperation db (.ofLiteral "DELETE") key val =
      applyOperation db (.ofLiteral "DELETE") key val' := by
  have hinsert : CString.ofLiteral "DELETE" ≠ .ofLiteral "INSERT" := by decide
  have hupdate : CString.ofLiteral "DELETE" ≠ .ofLiteral "UPDATE" := by decide
  simp [applyOperation, if_neg hinsert, hupdate]

theorem replayLoop_line (hplain : c.plain) (hrest : Stops isSpace rest) (fuel : Nat) (db : Db) :
    replayLoop (fuel + 1) db (c.line ++ rest) = (Call.apply db c.call).bind fun db =>
      replayLoop fuel db rest := by
  rw [Commit.plain, Bool.and_eq_true] at hplain
  rcases hplain with ⟨hkey, hvalue⟩
  rcases c.shape with ⟨hop, hsome⟩ | ⟨hop, hnone⟩
  · rcases ne_none_iff_exists'.1 hsome with ⟨value, hc⟩
    rw [hc, all_some, Bool.and_eq_true, decide_eq_true_eq] at hvalue
    have hword : isWord c.operation ∧ c.operation.bytes.length < 16 := by
      rcases hop with hop | hop
      · rw [hop]
        decide
      · rw [hop]
        decide
    rw [Commit.line, hc, map_some, replayLoop_logLine c.now hword.1 hword.2 hkey c.key.fits
      hvalue.1 value.fits hrest, if_neg hvalue.2, Call.apply]
    simp [Commit.call, hc]
  · -- a missing value is written as a word, and read back as the empty string
    have hnull : c.line = logLine c.now c.operation c.key.str (some (.ofLiteral "NULL")) := by
      rw [Commit.line, hnone]
      rfl
    rw [hnull, hop, replayLoop_logLine c.now (by decide) (by decide) hkey c.key.fits (by decide)
      (by decide) hrest, if_pos rfl, Call.apply]
    simp only [Commit.call, hop]
    rw [applyOperation_delete db c.key.str (some .empty)]

theorem replayLoop_lines (hplain : ∀ c ∈ calls, c.plain) {fuel : Nat}
    (hfuel : calls.length < fuel) (db : Db) :
    replayLoop fuel db (calls.flatMap Commit.line) =
      runCalls Call.apply db (calls.map Commit.call) := by
  induction calls generalizing fuel db with
  | nil =>
    rcases fuel with _ | fuel
    · omega
    rfl
  | cons c calls ih =>
    rcases fuel with _ | fuel
    · omega
    rw [flatMap_cons, replayLoop_line (hplain c mem_cons_self) (stops_lines calls),
      map_cons, runCalls]
    congr 1
    funext db
    exact ih (fun d hd => hplain d (mem_cons_of_mem _ hd)) (Nat.lt_of_succ_lt_succ hfuel) db

theorem runCalls_commit (wal : List UInt8) (db : Db) (calls : List Commit) :
    ∃ db', runCalls Commit.run ⟨some wal, db⟩ calls =
      some ⟨some (wal ++ calls.flatMap Commit.line), db'⟩ ∧
      runCalls Call.apply db (calls.map Commit.call) = some db' := by
  induction calls generalizing wal db with
  | nil => exact ⟨db, by rw [flatMap_nil, append_nil]; rfl, rfl⟩
  | cons c calls ih =>
    rcases apply_spec db c.call with ⟨db1, hcall, -⟩
    rcases ih (wal ++ c.line) db1 with ⟨db2, hrun, happly⟩
    have hcommit : Commit.run ⟨some wal, db⟩ c = some ⟨some (wal ++ c.line), db1⟩ := by
      have happly : applyOperation db c.operation c.key.str (c.value.map CBuf.str) =
        some db1 := hcall
      simp [Commit.run, commitOperation, happly, writeToWal, Commit.line]
    refine ⟨db2, ?_, ?_⟩
    · rw [runCalls, hcommit, bind_some, hrun, flatMap_cons, append_assoc]
    · rw [map_cons, runCalls, hcall, bind_some, happly]

theorem length_le_flatMap (calls : List Commit) :
    calls.length ≤ (calls.flatMap Commit.line).length := by
  induction calls with
  | nil => exact Nat.zero_le _
  | cons c calls ih =>
    have hpos : 0 < c.line.length := by
      exact Nat.succ_pos _
    rw [flatMap_cons, length_append, length_cons]
    omega

/-- Keys and values that are words other than `NULL` survive the log. -/
theorem replay_reconstructs (calls : List Commit) (hplain : ∀ c ∈ calls, c.plain) :
    ∃ s, runCalls Commit.run ⟨none, .empty⟩ calls = some s ∧ replay .empty s.wal = some s.db := by
  cases calls with
  | nil => exact ⟨⟨none, .empty⟩, rfl, rfl⟩
  | cons c calls =>
    -- the first call creates the file
    have hcreate : Commit.run ⟨none, .empty⟩ c = Commit.run ⟨some [], .empty⟩ c := rfl
    rcases runCalls_commit [] .empty (c :: calls) with ⟨db, hrun, happly⟩
    refine ⟨⟨some ((c :: calls).flatMap Commit.line), db⟩, ?_, ?_⟩
    · rwa [runCalls, hcreate]
    · rw [replay, replayLoop_lines hplain (Nat.lt_succ_of_le (length_le_flatMap _)), happly]

def noon : Timestamp := ⟨⟨.ofLiteral "2025-11-24 12:00:00", by decide⟩, by decide, by decide⟩

def insertCommit (key : CBuf 64) (value : CBuf 128) : Commit :=
  ⟨noon, .ofLiteral "INSERT", key, some value, .inl ⟨.inl rfl, Option.some_ne_none _⟩⟩

def deleteCommit (key : CBuf 64) : Commit :=
  ⟨noon, .ofLiteral "DELETE", key, none, .inr ⟨rfl, rfl⟩⟩

theorem replay_reconstructs_deleted :
    ∃ s, runCalls Commit.run ⟨none, .empty⟩ [insertCommit keyK valueA, deleteCommit keyK] = some s ∧
      replay .empty s.wal = some s.db :=
  replay_reconstructs _ (by decide)

def valueAB : CBuf 128 := ⟨.ofLiteral "a b", by decide⟩

/-- A value with a space comes back as its first word. -/
theorem replay_cuts_value : (runCalls Commit.run ⟨none, .empty⟩ [insertCommit keyK valueAB]).map
        (fun s => (s.db.records, (replay .empty s.wal).map Db.records)) =
      some ([⟨keyK, valueAB, true⟩], some [⟨keyK, valueA, true⟩]) := by
  decide +kernel

end Replay

/-! ## A replay that is started again -/

variable {S T : List Record} {c : Call} {calls : List Call}

/-- A change keeps an initial part initial: the record is in it, or it is left alone. -/
theorem change_follows (h : S <+: T) (key : CString) (f : Record → Record) :
    change Record.name key f S <+: change Record.name key f T := by
  rcases h with ⟨rest, rfl⟩
  by_cases hkey : key ∈ names S
  · rw [change_append f hkey]
    exact prefix_append _ _
  · rw [change_append_of_notMem f hkey, change_of_notMem f hkey]
    exact prefix_append _ _

theorem push_follows {value : CBuf 128} (h : S <+: T) (hnew : c.key.str ∉ names S)
    (hnext : names (S ++ [⟨c.key, value, true⟩]) <+: names T) :
    c.key.str ∈ names T ∧
      S ++ [⟨c.key, value, true⟩] <+: change Record.name c.key.str (Record.assign value) T := by
  rcases h with ⟨rest, rfl⟩
  rw [names, names, map_append, map_append, prefix_append_right_inj] at hnext
  cases rest with
  | nil => exact absurd (prefix_nil.1 hnext) (cons_ne_nil _ _)
  | cons r rest =>
    have hname : c.key.str = r.name := (cons_prefix_cons.1 hnext).1
    have hkey : r.key = c.key := CBuf.eq_of_str_eq hname.symm
    refine ⟨?_, ?_⟩
    · rw [names, map_append, map_cons, hname]
      exact mem_append_right _ mem_cons_self
    · rw [change_append_of_notMem _ hnew, change, if_pos hname.symm, prefix_append_right_inj,
        cons_prefix_cons]
      exact ⟨by rw [Record.assign, hkey], nil_prefix⟩

theorem effect_follows (h : S <+: T) (hbound : T.length ≤ MAX_KEYS)
    (hnext : names (effect S c) <+: names T) :
    effect S c <+: effect T c ∧ names (effect T c) = names T := by
  rw [effect] at hnext
  rw [effect, effect]
  cases hop : c.op with
  | insert value =>
    simp only [hop] at hnext ⊢
    by_cases hold : c.key.str ∈ names S
    · have hold' : c.key.str ∈ names T := (h.map Record.name).subset hold
      rw [if_pos hold, if_pos hold']
      exact ⟨change_follows h _ _, names_change (name_assign value)⟩
    · rw [if_neg hold] at hnext ⊢
      by_cases hroom : S.length < MAX_KEYS
      · rw [if_pos hroom] at hnext ⊢
        rcases push_follows h hold hnext with ⟨hfound, hfollows⟩
        rw [if_pos hfound]
        exact ⟨hfollows, names_change (name_assign value)⟩
      · -- both runs have a full store
        obtain rfl : S = T := h.eq_of_length_le (by omega)
        rw [if_neg hroom, if_neg hold]
        exact ⟨prefix_rfl, rfl⟩
  | update value => exact ⟨change_follows h _ _, names_change (name_assign value)⟩
  | delete => exact ⟨change_follows h _ _, names_change name_remove⟩
  | other => exact ⟨h, rfl⟩

theorem names_foldl_effect (S : List Record) (calls : List Call) :
    names S <+: names (calls.foldl effect S) := by
  induction calls generalizing S with
  | nil => exact prefix_rfl
  | cons c calls ih =>
    rcases names_effect S c with hsame | ⟨-, hadd⟩
    · rw [← hsame]
      exact ih (effect S c)
    · exact (hadd ▸ prefix_append _ _).trans (ih (effect S c))

theorem foldl_effect_follows (h : S <+: T) (hbound : T.length ≤ MAX_KEYS)
    (hlast : names (calls.foldl effect S) <+: names T) :
    calls.foldl effect S <+: calls.foldl effect T ∧ names (calls.foldl effect T) = names T := by
  induction calls generalizing S T with
  | nil => exact ⟨h, rfl⟩
  | cons c calls ih =>
    have hnext : names (effect S c) <+: names T := (names_foldl_effect _ calls).trans hlast
    rcases effect_follows h hbound hnext with ⟨hfollows, hnames⟩
    have hlength : (effect T c).length = T.length := by
      have hlen := congrArg List.length hnames
      rwa [names, names, length_map, length_map] at hlen
    rcases ih hfollows (hlength ▸ hbound) (hnames ▸ hlast) with ⟨hfollows', hnames'⟩
    exact ⟨hfollows', hnames'.trans hnames⟩

theorem foldl_effect_again (hbound : (calls.foldl effect []).length ≤ MAX_KEYS) :
    calls.foldl effect (calls.foldl effect []) = calls.foldl effect [] := by
  rcases foldl_effect_follows nil_prefix hbound prefix_rfl with ⟨hfollows, hnames⟩
  have hlen := congrArg List.length hnames
  rw [names, names, length_map, length_map] at hlen
  exact (hfollows.eq_of_length hlen.symm).symm

theorem run_again {db : Db} (h : runCalls Call.apply .empty calls = some db) :
    runCalls Call.apply db calls = some db := by
  rcases runCalls_apply .empty calls with ⟨db1, hrun1, hrecords1⟩
  obtain rfl : db1 = db := some.inj (hrun1.symm.trans h)
  rcases runCalls_apply db1 calls with ⟨db2, hrun2, hrecords2⟩
  have hbound := db1.bounded
  rw [hrecords1] at hbound hrecords2
  rw [hrun2,
    Db.eq_of_records_eq (hrecords2.trans ((foldl_effect_again hbound).trans hrecords1.symm))]

/-- A replay can be broken off anywhere and started again from the beginning of the log. -/
theorem replay_restarts (log done : List Call) (hdone : done <+: log) :
    ∃ dbDone db, runCalls Call.apply .empty done = some dbDone ∧
      runCalls Call.apply .empty log = some db ∧ runCalls Call.apply dbDone log = some db ∧
      runCalls Call.apply db log = some db := by
  rcases hdone with ⟨rest, rfl⟩
  rcases runCalls_apply .empty done with ⟨dbDone, hdone, -⟩
  rcases runCalls_apply dbDone rest with ⟨db, hrest, -⟩
  have honce : runCalls Call.apply .empty (done ++ rest) = some db := by
    rw [runCalls_append, hdone, bind_some, hrest]
  have hrestart : runCalls Call.apply dbDone (done ++ rest) = some db := by
    rw [runCalls_append, run_again hdone, bind_some, hrest]
  exact ⟨dbDone, db, hdone, honce, hrestart, run_again honce⟩

-- The log breaks off between the update of a key and its deletion.
theorem replay_restarts_twoCalls :
    ∃ dbDone db, runCalls Call.apply .empty [insertCall keyK valueA, updateCall keyK valueB] =
      some dbDone ∧
      runCalls Call.apply .empty [insertCall keyK valueA, updateCall keyK valueB, deleteCall keyK] =
        some db ∧
      runCalls Call.apply dbDone [insertCall keyK valueA, updateCall keyK valueB, deleteCall keyK] =
        some db ∧
      runCalls Call.apply db [insertCall keyK valueA, updateCall keyK valueB, deleteCall keyK] =
        some db :=
  replay_restarts _ _ (prefix_append [insertCall keyK valueA, updateCall keyK valueB] _)

end SystemsLab.WalReplay
