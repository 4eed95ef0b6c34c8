import SystemsLab.KvServer.Protocol

/-!
# What clients can rely on

Results about any number of clients, one after the other, and whatever they send:

* the server with the store of `libkvstore.c` cannot be told from the one with the built-in store,
  although its `set_value` leaves out two terminators;
* a value that was stored is answered until the key is set again.  The reply `OK` alone does not say
  that it was stored: a new key is dropped when the store is full.
-/

namespace SystemsLab.KvServer

open KeyedList Scanf Option

theorem represents_nil : Represents [] [] := List.Forall₂.nil

/-! ## The two stores -/

/-- Both servers send the same bytes to every client. -/
theorem plugin_sends_same (clients : List (List UInt8)) :
    ∃ store logs store' logs', serve uds [] (clients.map readLines) = some (store, logs) ∧
      serve plugin [] (clients.map readLines) = some (store', logs') ∧
        logs.map sent = logs'.map sent := by
  rcases serve_refines uds_implements represents_nil (clients.map readLines)
    with ⟨store, logs, hserve, -, hlogs⟩
  rcases serve_refines plugin_implements represents_nil (clients.map readLines) with
    ⟨store', logs', hserve', -, hlogs'⟩
  refine ⟨store, logs, store', logs', hserve, hserve', ?_⟩
  rw [map_sent_eq hlogs, map_sent_eq hlogs']

/-! ## A log as a run -/

/-- Every exchange has the store that the ones before it leave, and the reply that belongs to it. -/
def Linked {σ : Type} (R : σ → Pairs → Prop) : Pairs → List (Exchange σ) → Pairs → Prop
  | pairs, [], last => pairs = last
  | pairs, e :: log, last =>
    R e.store pairs ∧ e.reply = (parse (commandText e.line)).reply pairs ∧
      Linked R ((parse (commandText e.line)).effect pairs) log last

variable {σ : Type} {R : σ → Pairs → Prop} {pairs last : Pairs} {log log' : List (Exchange σ)}
  {k v : CString}

theorem linked_append : Linked R pairs (log ++ log') last ↔
    ∃ middle, Linked R pairs log middle ∧ Linked R middle log' last := by
  induction log generalizing pairs with
  | nil => simp [Linked]
  | cons e log ih => simp only [List.cons_append, Linked, ih, exists_and_left, and_assoc]

theorem talk_linked (pairs : Pairs) (reads : List (List UInt8)) :
    Linked Eq pairs (talk pairs reads).2 (talk pairs reads).1 := by
  induction reads generalizing pairs with
  | nil => exact rfl
  | cons line reads ih =>
    by_cases hexit : parse (commandText line) = .exit
    · simp only [talk, if_pos hexit]
      refine ⟨rfl, rfl, ?_⟩
      rw [hexit]
      exact rfl
    · simp only [talk, if_neg hexit]
      exact ⟨rfl, rfl, ih _⟩

theorem talkAll_linked (pairs : Pairs) (clients : List (List (List UInt8))) :
    Linked Eq pairs (talkAll pairs clients).2.flatten (talkAll pairs clients).1 := by
  induction clients generalizing pairs with
  | nil => exact rfl
  | cons reads clients ih => exact linked_append.2 ⟨_, talk_linked pairs reads, ih _⟩

theorem Linked.of_matches {log : List (Exchange Store)} {log' : List (Exchange Pairs)}
    (h : Linked Eq pairs log' last) (hlog : List.Forall₂ Exchange.Matches log log') :
    Linked Represents pairs log last := by
  induction hlog generalizing pairs with
  | nil => exact h
  | @cons e e' log log' he hlog ih =>
    rcases h with ⟨hstore, hreply, hrest⟩
    rw [← he.line] at hreply hrest
    exact ⟨hstore ▸ he.store, he.reply.trans hreply, ih hrest⟩

/-! ## What is stored -/

theorem find_put_self (hroom : k ∈ pairs.map Prod.fst ∨ pairs.length < MAX_ITEMS) (v : CString) :
    find (put pairs k v) k = some v := by
  rw [put, find]
  split_ifs with hmem hlen
  · rcases exists_lookup hmem with ⟨p, hp⟩
    rw [lookup_change_self (f := fun p => (p.1, v)) fun _ => rfl, hp]
    rfl
  · rw [lookup_push, lookup_eq_none_iff.2 hmem, if_pos rfl]
    rfl
  · exact absurd (hroom.resolve_left hmem) hlen

theorem find_put_of_ne {k' : CString} (hne : k' ≠ k) : find (put pairs k v) k' = find pairs k' := by
  rw [put, find, find]
  split_ifs with hmem hlen
  · rw [lookup_change_of_ne (f := fun p => (p.1, v)) (fun _ => rfl) hne]
  · rw [lookup_push, if_neg (Ne.symm hne), or_none]
  · rfl

theorem find_effect {c : Command} (hc : ∀ v, c ≠ .set k v) :
    find (c.effect pairs) k = find pairs k := by
  cases c with
  | set k' v =>
    refine find_put_of_ne fun heq => hc v ?_
    rw [heq]
  | _ => rfl

theorem find_linked (h : Linked R pairs log last)
    (hother : ∀ e ∈ log, ∀ v, parse (commandText e.line) ≠ .set k v) :
    find last k = find pairs k := by
  induction log generalizing pairs with
  | nil =>
    cases h
    rfl
  | cons e log ih =>
    rcases h with ⟨-, -, hrest⟩
    rw [ih hrest fun e he => hother e (List.mem_cons_of_mem _ he)]
    exact find_effect (hother e List.mem_cons_self)

/-! ## Command lines -/

def setLine (k v : CString) : CString := .ofLiteral "SET " ++ (k ++ (.ofLiteral " " ++ v))

def getLine (k : CString) : CString := .ofLiteral "GET " ++ k

def isKey (k : CString) : Bool := isWord k && k.bytes.length < KEY_LEN

def isValue (v : CString) : Bool :=
  v.bytes ≠ [] && v.bytes.length < VAL_LEN && v.bytes.head?.all (fun c => !isSpace c) &&
    v.bytes.all fun c => c ≠ 10 && c ≠ 13

theorem parse_setLine (hk : isKey k) (hv : isValue v) : parse (setLine k v) = .set k v := by
  rw [isKey, Bool.and_eq_true, decide_eq_true_eq] at hk
  simp only [isValue, Bool.and_eq_true, decide_eq_true_eq, List.all_eq_true] at hv
  rcases hk with ⟨hword, hklen⟩
  rcases hv with ⟨⟨⟨hne, hvlen⟩, hfirst⟩, heol⟩
  have hstop : Stops isSpace (v.bytes ++ []) := by
    rw [List.append_nil]
    intro c hc
    rw [mem_def.1 hc, all_some] at hfirst
    simpa using hfirst
  have hline : ∀ c ∈ v.bytes, decide (c ≠ 10) = true := fun c hc => decide_eq_true (heol c hc).1
  have hwidth : ∀ w ∈ some 255, v.bytes.length ≤ w := by simpa using Nat.le_of_lt_succ hvlen
  have hdrop : (setLine k v).bytes.drop 4 = k.bytes ++ ([32] ++ (v.bytes ++ [])) := by
    rw [List.append_nil]
    rfl
  have hscan : scanf setFormat (k.bytes ++ ([32] ++ (v.bytes ++ []))) = some ⟨[k, v], []⟩ := by
    rw [setFormat,
      scanf_word hword (by simpa using Nat.le_of_lt_succ hklen) hklen (stops_space (by decide)),
      scanf_white (by decide) hstop,
      scanf_run hne hline hwidth hvlen stops_nil]
    rfl
  rw [parse, hdrop, hscan]
  rfl

theorem parse_getLine (hk : isKey k) : parse (getLine k) = .get k := by
  rw [isKey, Bool.and_eq_true, decide_eq_true_eq] at hk
  have hget : (getLine k).strncmpEq (.ofLiteral "GET ") 4 = true := rfl
  have hdrop : (getLine k).bytes.drop 4 = k.bytes ++ [] := by
    rw [List.append_nil]
    rfl
  have hscan : scanf getFormat (k.bytes ++ []) = some ⟨[k], []⟩ := by
    rw [getFormat, scanf_word hk.1 (by simpa using Nat.le_of_lt_succ hk.2) hk.2 stops_nil]
    rfl
  rw [parse, if_pos hget, hdrop, hscan]
  rfl

/-! ## Acknowledged values -/

/-- `set_value` finds the key, or room for it. -/
def hasRoom (store : Store) (k : CString) : Bool :=
  store.length < MAX_ITEMS || getValue store k ≠ some none

theorem hasRoom_iff {store : Store} (h : Represents store pairs) (k : CString) :
    hasRoom store k ↔ k ∈ pairs.map Prod.fst ∨ pairs.length < MAX_ITEMS := by
  have hfind : find pairs k ≠ none ↔ k ∈ pairs.map Prod.fst := by
    rw [find, Ne, map_eq_none_iff, lookup_eq_none_iff, not_not]
  rw [hasRoom, Bool.or_eq_true, decide_eq_true_eq, decide_eq_true_eq, getValue_find h, h.length_eq,
    Ne, some.injEq, ← Ne, hfind, or_comm]

/-- A value for which there was room is answered until the next SET of its key. -/
theorem acknowledged_value_is_served (clients : List (List UInt8)) (k v : CString) (hk : isKey k)
    (hv : isValue v) :
    ∃ store logs, serve uds [] (clients.map readLines) = some (store, logs) ∧
      ∀ before set between get after, logs.flatten = before ++ set :: (between ++ get :: after) →
        commandText set.line = setLine k v → hasRoom set.store k →
        (∀ e ∈ between, ∀ v', parse (commandText e.line) ≠ .set k v') →
        commandText get.line = getLine k →
          set.reply = literal "OK\n" ∧ get.reply = valueLine v := by
  rcases serve_refines uds_implements represents_nil (clients.map readLines)
    with ⟨store, logs, hserve, -, hlogs⟩
  refine ⟨store, logs, hserve, ?_⟩
  intro before set between get after hsplit hset hroom hother hget
  have hlinked := (talkAll_linked [] (clients.map readLines)).of_matches (List.rel_flatten hlogs)
  -- the run is cut in front of the SET and in front of the GET
  rw [hsplit, linked_append] at hlinked
  rcases hlinked with ⟨pairs, -, hstore, hreply, hlinked⟩
  rw [linked_append] at hlinked
  rcases hlinked with ⟨pairs', hbetween, -, hreply', -⟩
  rw [hset, parse_setLine hk hv] at hreply hbetween
  rw [hget, parse_getLine hk] at hreply'
  have hfind : find pairs' k = some v := by
    rw [find_linked hbetween hother]
    exact find_put_self ((hasRoom_iff hstore k).1 hroom) v
  refine ⟨hreply, ?_⟩
  rw [hreply', Command.reply, hfind]

/-- One client sets a value twice and leaves, the next one asks for it. -/
def twoClients : List (List UInt8) :=
  [literal "SET k a\nSET k b c\r\nEXIT\n", literal "SET j a\nGET k\n"]

theorem acknowledged_value_is_served_later :
    (serve uds [] (twoClients.map readLines)).map (fun r => r.2.flatten.map Exchange.reply) =
        some (["OK\n", "OK\n", "BYE\n", "OK\n", "VALUE b c\n"].map literal) ∧
      ∃ store logs, serve uds [] (twoClients.map readLines) = some (store, logs) ∧
        ∀ before set between get after, logs.flatten = before ++ set :: (between ++ get :: after) →
          commandText set.line = setLine (.ofLiteral "k") (.ofLiteral "b c") →
            hasRoom set.store (.ofLiteral "k") →
          (∀ e ∈ between, ∀ v', parse (commandText e.line) ≠ .set (.ofLiteral "k") v') →
          commandText get.line = getLine (.ofLiteral "k") →
            set.reply = literal "OK\n" ∧ get.reply = valueLine (.ofLiteral "b c") :=
  ⟨by decide +kernel, acknowledged_value_is_served _ _ _ (by decide) (by decide)⟩

/-- A client that sets one key more than the store has room for, and asks for the last one. -/
def crowd : List UInt8 :=
  ((List.range (MAX_ITEMS + 1)).flatMap fun i =>
      literal "SET " ++ [UInt8.ofNat (i + 33)] ++ literal " v\n") ++
    literal "GET " ++ [UInt8.ofNat (MAX_ITEMS + 33)] ++ literal "\n"

/-- Every SET is answered with OK, and the last one has stored nothing. -/
theorem full_store_acknowledges : (serve uds [] [readLines crowd]).map (fun r => r.2.map sent) =
      some [literal "Mini KV Store ready\n" ++
        (List.replicate (MAX_ITEMS + 1) (literal "OK\n")).flatten ++ literal "NOTFOUND\n"] := by
  rcases serve_refines uds_implements represents_nil [readLines crowd]
    with ⟨store, logs, hserve, -, hlogs⟩
  -- evaluated without the arrays
  have htalk : (talkAll [] [readLines crowd]).2.map sent = [literal "Mini KV Store ready\n" ++
      (List.replicate (MAX_ITEMS + 1) (literal "OK\n")).flatten ++ literal "NOTFOUND\n"] := by
        decide +kernel
  rw [hserve, map_some, map_sent_eq hlogs, htalk]

end SystemsLab.KvServer
