import SystemsLab.CLib.CharArray
import SystemsLab.CLib.Scanf
import SystemsLab.Data.KeyedList

/-!
# Three servers of one key-value protocol

* `uds` — `SOCKET/KEY_VALUE_UDS/uds_kv_server.c`, with its own store;
* `plugin` — `server.c` with the store of `libkvstore.c`, under
  `STATIC_DYNAMIC_LIBRARY/DYNAMIC_LIBRARY/TASK`;
* `perfTop` — `PROFILING/TASK/uds_kv_server_perf_top.c`.

They differ in the terminators that `set_value` writes, in the way the line `VALUE ..` is sent, and
in what a command is: the first two read a line byte by byte, the third one takes whatever a `read`
returns. The loop over the commands of a client is the same text in all three (`clientLoop`).

The store is a static array, so the elements that were never written are zero.  A string without a
terminator inside its array makes the run fail.

The purpose of the programs, without arrays: a store is a list of keys and values (`Pairs`), a line
is parsed into a `Command`, and `talk` answers the lines of a client one by one.
-/

namespace SystemsLab.KvServer

open CharArray Scanf Option List

def MAX_ITEMS : Nat := 128
def KEY_LEN : Nat := 64
def VAL_LEN : Nat := 256

structure KVPair where
  key : CArray UInt8 KEY_LEN
  val : CArray UInt8 VAL_LEN

/-- `store[0 .. store_count)` -/
abbrev Store := List KVPair

/-- An element that was never written. -/
def unused : KVPair := ⟨.fill 0, .fill 0⟩

/-! ## `set_value` and `get_value` -/

/-- Which of the copies in `set_value` are followed by `buf[n - 1] = '\0'`. -/
structure Terminators where
  update : Bool
  newKey : Bool
  newVal : Bool

/-- `strncpy(buf, s, n - 1);`, with the terminator or without. -/
def copyInto {n : Nat} (terminated : Bool) (buf : CArray UInt8 n) (s : CString) :
    Option (CArray UInt8 n) := do
  let buf ← strncpy buf s (n - 1)
  if terminated then buf.set (n - 1) 0 else some buf

/-- The loop of `set_value`; `none` inside says that it ended without a `return`. -/
def updateLoop (terminated : Bool) (k v : CString) : Store → Option (Option Store)
  | [] => some none
  | pair :: store => do
      let key ← text pair.key
      if key = k then do
        let val ← copyInto terminated pair.val v
        some (some ({ pair with val } :: store))
      else do
        let updated ← updateLoop terminated k v store
        some (updated.map (pair :: ·))

def setValueWith (terminators : Terminators) (store : Store) (k v : CString) : Option Store := do
  match ← updateLoop terminators.update k v store with
  | some store => some store
  | none =>
    if store.length < MAX_ITEMS then do
      let key ← copyInto terminators.newKey unused.key k
      let val ← copyInto terminators.newVal unused.val v
      some (store ++ [⟨key, val⟩])
    else some store

/-- `get_value` is the same in all three programs. -/
def getValue (store : Store) (k : CString) : Option (Option CString) :=
  match store with
  | [] => some none
  | pair :: store => do
      let key ← text pair.key
      if key = k then do
        let val ← text pair.val
        some (some val)
      else getValue store k

/-! ## Output -/

/-- `write_all(fd, text, len)` of a literal. -/
def writeLiteral (text : String) (len : Nat) : List UInt8 := (literal text).take len

/-- `snprintf(out, size, ..)`: what is in the buffer, and the length of the whole text. -/
def snprintf (size : Nat) (text : List UInt8) : List UInt8 × Nat :=
  (text.take (size - 1), text.length)

/-- `write_all(fd, out, len)`; the bytes behind the text in a buffer are not known. -/
def writeBuf (out : List UInt8) (len : Nat) : Option (List UInt8) :=
  if len ≤ out.length then some (out.take len) else none

/-- `"VALUE %s\n"` -/
def valueLine (v : CString) : List UInt8 := literal "VALUE " ++ v.bytes ++ literal "\n"

/-! ## The servers -/

/-- What the programs do not have in common. -/
structure Server where
  setValue : Store → CString → CString → Option Store
  writeValue : CString → Option (List UInt8)

namespace Uds

def setValue : Store → CString → CString → Option Store := setValueWith ⟨true, true, true⟩

/-- `m = snprintf(out, sizeof(out), ..); if (m > 0) write_all(client_fd, out, m);` -/
def writeValue (v : CString) : Option (List UInt8) :=
  let (out, m) := snprintf (VAL_LEN + KEY_LEN + 4) (valueLine v)
  if 0 < m then writeBuf out m else some []

end Uds

namespace LibKvStore

def setValue : Store → CString → CString → Option Store := setValueWith ⟨true, false, false⟩

/-- `snprintf(out, sizeof(out), ..); write_all(client_fd, out, strlen(out));` -/
def writeValue (v : CString) : Option (List UInt8) :=
  let (out, _) := snprintf 512 (valueLine v)
  writeBuf out (CString.ofBytes out).bytes.length

end LibKvStore

namespace PerfTop

def setValue : Store → CString → CString → Option Store := setValueWith ⟨false, false, false⟩

/-- `dprintf(client_fd, ..);` -/
def writeValue (v : CString) : Option (List UInt8) := some (valueLine v)

end PerfTop

def uds : Server := ⟨Uds.setValue, Uds.writeValue⟩

def plugin : Server := ⟨LibKvStore.setValue, LibKvStore.writeValue⟩

def perfTop : Server := ⟨PerfTop.setValue, PerfTop.writeValue⟩

/-! ## The commands of a client -/

def BUF_SIZE : Nat := 1024

/-- What `read_line` returns and what is left, with room for `room` bytes in the buffer. -/
def readLine : Nat → List UInt8 → List UInt8 × List UInt8
  | 0, input => ([], input)
  | _ + 1, [] => ([], [])
  | room + 1, c :: input =>
    if c = 10 then ([c], input)
    else
      let (line, rest) := readLine room input
      (c :: line, rest)

/-- The results of at most `n` calls `read_line(fd, buf, BUF_SIZE)`, up to the one that returns 0.
-/
def readLinesLoop : Nat → List UInt8 → List (List UInt8)
  | 0, _ => []
  | n + 1, input =>
    let (line, rest) := readLine (BUF_SIZE - 1) input
    if line = [] then [] else line :: readLinesLoop n rest

/-- What a client sends, as `read_line` returns it; every line has a byte. -/
def readLines (input : List UInt8) : List (List UInt8) := readLinesLoop input.length input

/-- `buf[n] = '\0'; buf[strcspn(buf, "\r\n")] = '\0';` -/
def commandText (line : List UInt8) : CString :=
  (CString.ofBytes line).cut fun c => c = 13 || c = 10

/-- `"%63s %255[^\n]"` -/
def setFormat : List Directive :=
  [.word (some 63) KEY_LEN, .white, .run (· ≠ 10) (some 255) VAL_LEN]

/-- `"%63s"` -/
def getFormat : List Directive := [.word (some 63) KEY_LEN]

/-- What a command does, and whether the loop goes on behind it. -/
structure Answer where
  store : Store
  reply : List UInt8
  goesOn : Bool

/-- The body of the loop behind the reading. -/
def command (server : Server) (store : Store) (buf : CString) : Option Answer :=
  if buf.strncmpEq (.ofLiteral "SET ") 4 then do
    let scanned ← scanf setFormat (buf.bytes.drop 4)
    match scanned.args with
    | [key, val] => do
        let store ← server.setValue store key val
        some ⟨store, writeLiteral "OK\n" 3, true⟩
    | _ => some ⟨store, writeLiteral "ERR usage: SET <key> <value>\n" 29, true⟩
  else if buf.strncmpEq (.ofLiteral "GET ") 4 then do
    let scanned ← scanf getFormat (buf.bytes.drop 4)
    match scanned.args with
    | [key] => do
        match ← getValue store key with
        | some v => do
            let reply ← server.writeValue v
            some ⟨store, reply, true⟩
        | none => some ⟨store, writeLiteral "NOTFOUND\n" 9, true⟩
    | _ => some ⟨store, writeLiteral "ERR usage: GET <key>\n" 21, true⟩
  else if buf = .ofLiteral "EXIT" then some ⟨store, writeLiteral "BYE\n" 4, false⟩
  else some ⟨store, writeLiteral "ERR unknown command\n" 20, true⟩

/-- What was read, the store at that moment, and what was sent. -/
structure Exchange (σ : Type) where
  store : σ
  line : List UInt8
  reply : List UInt8

/-- The loop over the results of the reads. -/
def clientLoop (server : Server) :
    Store → List (List UInt8) → Option (Store × List (Exchange Store))
  | store, [] => some (store, [])
  | store, line :: reads => do
      let answer ← command server store (commandText line)
      if answer.goesOn then do
        let (store', log) ← clientLoop server answer.store reads
        some (store', ⟨store, line, answer.reply⟩ :: log)
      else some (answer.store, [⟨store, line, answer.reply⟩])

/-- The loop of `main`: one client after the other, each with the reads of its connection. -/
def serve (server : Server) :
    Store → List (List (List UInt8)) → Option (Store × List (List (Exchange Store)))
  | store, [] => some (store, [])
  | store, reads :: clients => do
      let (store, log) ← clientLoop server store reads
      let (store, logs) ← serve server store clients
      some (store, log :: logs)

def sent {σ : Type} (log : List (Exchange σ)) : List UInt8 :=
  writeLiteral "Mini KV Store ready\n" 20 ++ log.flatMap Exchange.reply

open KeyedList

/-! ## The protocol -/

abbrev Pairs := List (CString × CString)

inductive Command where
  | set (key val : CString)
  | setUsage
  | get (key : CString)
  | getUsage
  | exit
  | unknown
  deriving DecidableEq

def parse (buf : CString) : Command :=
  if buf.strncmpEq (.ofLiteral "SET ") 4 then
    match (scanf setFormat (buf.bytes.drop 4)).map Scanned.args with
    | some [key, val] => .set key val
    | _ => .setUsage
  else if buf.strncmpEq (.ofLiteral "GET ") 4 then
    match (scanf getFormat (buf.bytes.drop 4)).map Scanned.args with
    | some [key] => .get key
    | _ => .getUsage
  else if buf = .ofLiteral "EXIT" then .exit
  else .unknown

/-- A new key is dropped when the store is full. -/
def put (pairs : Pairs) (k v : CString) : Pairs :=
  if k ∈ pairs.map Prod.fst then change Prod.fst k (fun p => (p.1, v)) pairs
  else if pairs.length < MAX_ITEMS then pairs ++ [(k, v)]
  else pairs

def find (pairs : Pairs) (k : CString) : Option CString := (lookup Prod.fst k pairs).map Prod.snd

namespace Command

def effect (pairs : Pairs) : Command → Pairs
  | .set k v => put pairs k v
  | _ => pairs

def reply (pairs : Pairs) : Command → List UInt8
  | .set _ _ => literal "OK\n"
  | .setUsage => literal "ERR usage: SET <key> <value>\n"
  | .get k =>
    match find pairs k with
    | some v => valueLine v
    | none => literal "NOTFOUND\n"
  | .getUsage => literal "ERR usage: GET <key>\n"
  | .exit => literal "BYE\n"
  | .unknown => literal "ERR unknown command\n"

end Command

/-- The commands of one client, up to EXIT. -/
def talk : Pairs → List (List UInt8) → Pairs × List (Exchange Pairs)
  | pairs, [] => (pairs, [])
  | pairs, line :: reads =>
    let c := parse (commandText line)
    if c = .exit then (pairs, [⟨pairs, line, c.reply pairs⟩])
    else
      let (pairs', log) := talk (c.effect pairs) reads
      (pairs', ⟨pairs, line, c.reply pairs⟩ :: log)

def talkAll : Pairs → List (List (List UInt8)) → Pairs × List (List (Exchange Pairs))
  | pairs, [] => (pairs, [])
  | pairs, reads :: clients =>
    let (pairs, log) := talk pairs reads
    let (pairs, logs) := talkAll pairs clients
    (pairs, log :: logs)

/-! ## The arrays of the store -/

structure Shows (pair : KVPair) (p : CString × CString) : Prop where
  key : Holds pair.key p.1
  val : Holds pair.val p.2

def Represents (store : Store) (pairs : Pairs) : Prop := List.Forall₂ Shows store pairs

variable {store : Store} {pairs : Pairs} {k v : CString}

/-- With a zero at the end of the buffer the terminator makes no difference. -/
theorem copyInto_holds {n : Nat} {buf : CArray UInt8 n} {s : CString} (terminated : Bool)
    (hlast : buf.get (n - 1) = some 0) (hs : s.bytes.length < n) :
    ∃ a, copyInto terminated buf s = some a ∧ Holds a s := by
  rcases strncpy_holds hlast hs with ⟨a, ha, hholds⟩
  refine ⟨a, ?_, hholds⟩
  rw [copyInto, ha]
  cases terminated with
  | false => rfl
  | true => exact hholds.set_last

theorem updateLoop_spec (terminated : Bool) (h : Represents store pairs)
    (hv : v.bytes.length < VAL_LEN) :
    k ∉ pairs.map Prod.fst ∧ updateLoop terminated k v store = some none ∨
      k ∈ pairs.map Prod.fst ∧ ∃ store', updateLoop terminated k v store = some (some store') ∧
        Represents store' (change Prod.fst k (fun p => (p.1, v)) pairs) := by
  induction h with
  | nil => exact .inl ⟨not_mem_nil, rfl⟩
  | @cons pair p store pairs hpair hstore ih =>
    by_cases hk : p.1 = k
    · rcases copyInto_holds terminated hpair.val.last hv with ⟨val, hcopy, hval⟩
      refine .inr ⟨by simp [hk], { pair with val } :: store, ?_, ?_⟩
      · simp [updateLoop, hpair.key.text, hk, hcopy]
      · rw [change, if_pos hk]
        exact Forall₂.cons ⟨hpair.key, hval⟩ hstore
    · rcases ih with ⟨hnot, hloop⟩ | ⟨hmem, store', hloop, hrep⟩
      · refine .inl ⟨by simpa [Ne.symm hk] using hnot, ?_⟩
        simp [updateLoop, hpair.key.text, hk, hloop]
      · refine .inr ⟨mem_cons_of_mem _ hmem, pair :: store', ?_, ?_⟩
        · simp [updateLoop, hpair.key.text, hk, hloop]
        · rw [change, if_neg hk]
          exact Forall₂.cons hpair hrep

theorem setValueWith_put (terminators : Terminators) (h : Represents store pairs)
    (hk : k.bytes.length < KEY_LEN) (hv : v.bytes.length < VAL_LEN) :
    ∃ store', setValueWith terminators store k v = some store' ∧
      Represents store' (put pairs k v) := by
  have hlength : store.length = pairs.length := h.length_eq
  rcases updateLoop_spec terminators.update h hv with ⟨hnot, hloop⟩ | ⟨hmem, store', hloop, hrep⟩
  · rw [put, if_neg hnot]
    by_cases hroom : pairs.length < MAX_ITEMS
    · -- the element has not been written before, so its last bytes are zero
      have hlastKey : unused.key.get (KEY_LEN - 1) = some 0 := get_fill 0 (by decide)
      have hlastVal : unused.val.get (VAL_LEN - 1) = some 0 := get_fill 0 (by decide)
      rcases copyInto_holds terminators.newKey hlastKey hk with ⟨key, hkey, hkeyHolds⟩
      rcases copyInto_holds terminators.newVal hlastVal hv with ⟨val, hval, hvalHolds⟩
      refine ⟨store ++ [⟨key, val⟩], ?_, ?_⟩
      · simp [setValueWith, hloop, hlength, hroom, hkey, hval]
      · rw [if_pos hroom]
        exact rel_append h (Forall₂.cons ⟨hkeyHolds, hvalHolds⟩ Forall₂.nil)
    · refine ⟨store, ?_, ?_⟩
      · simp [setValueWith, hloop, hlength, hroom]
      · rwa [if_neg hroom]
  · refine ⟨store', ?_, ?_⟩
    · simp [setValueWith, hloop]
    · rwa [put, if_pos hmem]

theorem getValue_find (h : Represents store pairs) (k : CString) :
    getValue store k = some (find pairs k) := by
  induction h with
  | nil => rfl
  | @cons pair p store pairs hpair hstore ih =>
    by_cases hk : p.1 = k
    · simp [getValue, hpair.key.text, hpair.val.text, hk, find, KeyedList.lookup_cons]
    · simp [getValue, hpair.key.text, hk, find, KeyedList.lookup_cons, ih]

theorem length_find_lt (h : Represents store pairs) (hfind : find pairs k = some v) :
    v.bytes.length < VAL_LEN := by
  rw [find, map_eq_some_iff] at hfind
  rcases hfind with ⟨p, hp, rfl⟩
  rcases forall₂_iff_get.1 h with ⟨hlen, hget⟩
  rcases mem_iff_getElem.1 (mem_of_lookup hp).1 with ⟨i, hi, rfl⟩
  exact (hget i (hlen ▸ hi) hi).val.length_lt

/-! ## Servers -/

/-- A server that stores a pair as `put` does, and sends a value as one line. -/
structure Server.Implements (server : Server) : Prop where
  setValue : ∀ {store pairs k v}, Represents store pairs → k.bytes.length < KEY_LEN →
    v.bytes.length < VAL_LEN →
      ∃ store', server.setValue store k v = some store' ∧ Represents store' (put pairs k v)
  writeValue : ∀ {v : CString}, v.bytes.length < VAL_LEN → server.writeValue v = some (valueLine v)

theorem length_valueLine (v : CString) : (valueLine v).length = v.bytes.length + 7 := by
  rw [valueLine, length_append, length_append, add_right_comm]
  exact add_comm 7 _

/-- Nothing is cut off if the buffer has room for the longest value. -/
theorem snprintf_valueLine {size : Nat} (hv : v.bytes.length < VAL_LEN)
    (hsize : VAL_LEN + 7 ≤ size) :
    snprintf size (valueLine v) = (valueLine v, (valueLine v).length) := by
  rw [snprintf, take_of_length_le]
  rw [length_valueLine]
  omega

theorem writeBuf_all (out : List UInt8) : writeBuf out out.length = some out := by
  rw [writeBuf, if_pos le_rfl, take_length]

theorem uds_implements : uds.Implements where
  setValue h hk hv := setValueWith_put _ h hk hv
  writeValue {v} hv := by
    have hpos : 0 < (valueLine v).length := by
      exact Nat.succ_pos _
    simp only [uds, Uds.writeValue,
      snprintf_valueLine hv (by decide : VAL_LEN + 7 ≤ VAL_LEN + KEY_LEN + 4),
      if_pos hpos, writeBuf_all]

theorem noNul_valueLine (v : CString) : 0 ∉ valueLine v := by
  simp [valueLine, literal, v.noNul]

theorem plugin_implements : plugin.Implements where
  setValue h hk hv := setValueWith_put _ h hk hv
  writeValue {v} hv := by
    have hstrlen : CString.ofBytes (valueLine v) = ⟨valueLine v, noNul_valueLine v⟩ :=
      CString.ofBytes_bytes ⟨valueLine v, noNul_valueLine v⟩
    simp only [plugin, LibKvStore.writeValue, snprintf_valueLine hv (by decide : VAL_LEN + 7 ≤ 512),
      hstrlen, writeBuf_all]

theorem perfTop_implements : perfTop.Implements where
  setValue h hk hv := setValueWith_put _ h hk hv
  writeValue _ := rfl

/-! ## Commands -/

variable {server : Server}

theorem setFormat_limited : ∀ d ∈ setFormat, d.limited := by decide

theorem getFormat_limited : ∀ d ∈ getFormat, d.limited := by decide

theorem parse_set {buf key val : CString} (h : parse buf = .set key val) :
    key.bytes.length < KEY_LEN ∧ val.bytes.length < VAL_LEN ∧ val.bytes ⊆ buf.bytes := by
  rcases scanf_limited setFormat_limited (buf.bytes.drop 4) with ⟨r, hr, hargs⟩
  rw [parse, hr, map_some] at h
  split_ifs at h with hset hget hexit
  · split at h
    · rename_i key' val' heq
      cases h
      rw [Assigned, some.inj heq] at hargs
      cases hargs with
      | cons hkey hrest =>
        cases hrest with
        | cons hval _ => exact ⟨hkey.1, hval.1, Subset.trans hval.2 (drop_subset _ _)⟩
    · cases h
  · split at h
    · cases h
    · cases h

theorem command_refines (hserver : server.Implements) (h : Represents store pairs) (buf : CString) :
    ∃ answer, command server store buf = some answer ∧
      Represents answer.store ((parse buf).effect pairs) ∧ answer.reply = (parse buf).reply pairs ∧
      answer.goesOn = decide (parse buf ≠ .exit) := by
  rcases scanf_limited setFormat_limited (buf.bytes.drop 4) with ⟨⟨args, rest⟩, hset, -⟩
  rcases scanf_limited getFormat_limited (buf.bytes.drop 4) with ⟨⟨args', rest'⟩, hget, -⟩
  have hparse := @parse_set buf
  simp only [command, parse, hset, hget, map_some, bind_eq_bind, bind_some] at hparse ⊢
  split_ifs with hisSet hisGet hisExit
  -- `sscanf` has to assign both strings of a SET, and the one of a GET
  · rcases args with _ | ⟨key, _ | ⟨val, _ | ⟨other, args⟩⟩⟩
    · exact ⟨_, rfl, h, rfl, rfl⟩
    · exact ⟨_, rfl, h, rfl, rfl⟩
    · rcases hparse (if_pos hisSet) with ⟨hkey, hval, -⟩
      rcases hserver.setValue h hkey hval with ⟨store', hstore', hrep⟩
      refine ⟨⟨store', writeLiteral "OK\n" 3, true⟩, ?_, hrep, rfl, rfl⟩
      simp [hstore']
    · exact ⟨_, rfl, h, rfl, rfl⟩
  · rcases args' with _ | ⟨key, _ | ⟨other, args'⟩⟩
    · exact ⟨_, rfl, h, rfl, rfl⟩
    · dsimp only
      rw [getValue_find h key]
      cases hfind : find pairs key with
      | none =>
        refine ⟨_, rfl, h, ?_, rfl⟩
        rw [Command.reply, hfind]
        rfl
      | some v =>
        refine ⟨⟨store, valueLine v, true⟩, ?_, h, ?_, rfl⟩
        · simp [hserver.writeValue (length_find_lt h hfind)]
        · rw [Command.reply, hfind]
    · exact ⟨_, rfl, h, rfl, rfl⟩
  · exact ⟨_, rfl, h, rfl, rfl⟩
  · exact ⟨_, rfl, h, rfl, rfl⟩

/-! ## Runs -/

/-- The same exchange, seen with the arrays and without. -/
structure Exchange.Matches (e : Exchange Store) (e' : Exchange Pairs) : Prop where
  store : Represents e.store e'.store
  line : e.line = e'.line
  reply : e.reply = e'.reply

theorem clientLoop_refines (hserver : server.Implements) (h : Represents store pairs)
    (reads : List (List UInt8)) :
    ∃ store' log, clientLoop server store reads = some (store', log) ∧
      Represents store' (talk pairs reads).1 ∧
        Forall₂ Exchange.Matches log (talk pairs reads).2 := by
  induction reads generalizing store pairs with
  | nil => exact ⟨store, [], rfl, h, Forall₂.nil⟩
  | cons line reads ih =>
    rcases command_refines hserver h (commandText line) with ⟨answer, hanswer, hrep, hreply, hgoes⟩
    have hfirst : Exchange.Matches ⟨store, line, answer.reply⟩
        ⟨pairs, line, (parse (commandText line)).reply pairs⟩ := ⟨h, rfl, hreply⟩
    -- EXIT ends the loop, whatever the client has sent behind it
    by_cases hexit : parse (commandText line) = .exit
    · refine ⟨answer.store, [⟨store, line, answer.reply⟩], ?_, ?_, ?_⟩
      · simp [clientLoop, hanswer, hgoes, hexit]
      · rw [hexit] at hrep
        simp only [talk, if_pos hexit]
        exact hrep
      · simp only [talk, if_pos hexit]
        exact Forall₂.cons hfirst Forall₂.nil
    · rcases ih hrep with ⟨store', log, hloop, hrep', hlog⟩
      refine ⟨store', ⟨store, line, answer.reply⟩ :: log, ?_, ?_, ?_⟩
      · simp [clientLoop, hanswer, hgoes, hexit, hloop]
      · simpa only [talk, if_neg hexit] using hrep'
      · simp only [talk, if_neg hexit]
        exact Forall₂.cons hfirst hlog

theorem serve_refines (hserver : server.Implements) (h : Represents store pairs)
    (clients : List (List (List UInt8))) :
    ∃ store' logs, serve server store clients = some (store', logs) ∧
      Represents store' (talkAll pairs clients).1 ∧
      Forall₂ (Forall₂ Exchange.Matches) logs (talkAll pairs clients).2 := by
  induction clients generalizing store pairs with
  | nil => exact ⟨store, [], rfl, h, Forall₂.nil⟩
  | cons reads clients ih =>
    rcases clientLoop_refines hserver h reads with ⟨store1, log, hlog, hrep1, hmatch⟩
    rcases ih hrep1 with ⟨store2, logs, hlogs, hrep2, hmatches⟩
    refine ⟨store2, log :: logs, ?_, hrep2, Forall₂.cons hmatch hmatches⟩
    simp [serve, hlog, hlogs]

theorem sent_eq {log : List (Exchange Store)} {log' : List (Exchange Pairs)}
    (h : Forall₂ Exchange.Matches log log') : sent log = sent log' := by
  rw [sent, sent]
  congr 1
  induction h with
  | nil => rfl
  | cons he hlog ih => rw [flatMap_cons, flatMap_cons, he.reply, ih]

theorem map_sent_eq {logs : List (List (Exchange Store))} {logs' : List (List (Exchange Pairs))}
    (h : Forall₂ (Forall₂ Exchange.Matches) logs logs') : logs.map sent = logs'.map sent := by
  induction h with
  | nil => rfl
  | cons hlog hlogs ih => rw [map_cons, map_cons, sent_eq hlog, ih]

end SystemsLab.KvServer
