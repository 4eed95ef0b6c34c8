import Mathlib.Algebra.GroupWithZero.Nat
import Mathlib.Algebra.Order.Group.Nat
import SystemsLab.Concurrent.Outline

/-!
# The versioned row of `mvcc_demo.c`

One row keeps its versions newest first.  A writer draws a timestamp from the clock (`next_ts`,
under `tx_mutex`) and later installs its version (under the row's mutex); a reader takes a snapshot
of the clock (`begin_tx`) and reads the row as of that snapshot (`mvcc_read`).

Any number of threads make these calls in any order.  Two parts of `Demo` are bookkeeping: what each
reader has been returned since its last `begin_tx`, and the commits installed so far.

`mvcc_write_commit` closes the head with its own timestamp.  The intervals of the row tile
`[1, UINT64_MAX)` exactly as long as the installs come in timestamp order; the timestamps are drawn
outside the row's mutex, so nothing forces that order.  A snapshot that `begin_tx` takes between the
draw and the install changes under its reader when the version arrives.
-/

namespace SystemsLab.MvccDemo

open Concurrent

/-! ## Data -/

/-- `UINT64_MAX`, the `end_ts` of the newest version. -/
def uint64Max : Nat := 2 ^ 64 - 1

structure Version where
  value : Int
  beginTs : Nat
  endTs : Nat
  deriving DecidableEq, Repr

structure Demo where
  globalTs : Nat
  row : List Version
  snapshot : Nat → Option Nat
  seen : Nat → List Int
  installed : List (Nat × Int)

def rowInit (initialValue : Int) : List Version :=
  [⟨initialValue, 1, uint64Max⟩]

def initialDemo (initialValue : Int) : Demo :=
  { globalTs := 1
    row := rowInit initialValue
    snapshot := fun _ => none
    seen := fun _ => []
    installed := [(1, initialValue)] }

/-- The loop of `mvcc_read`: the first version whose interval has the snapshot. -/
def mvccRead : List Version → Nat → Int
  | [], _ => -1
  | v :: vs, startTs =>
    if v.beginTs ≤ startTs ∧ startTs < v.endTs then v.value else mvccRead vs startTs

/-- The critical section of `mvcc_write_commit`: close the head, push the new version. -/
def install (row : List Version) (newValue : Int) (commitTimestamp : Nat) : List Version :=
  match row with
  | [] => [⟨newValue, commitTimestamp, uint64Max⟩]
  | old :: rest =>
    let closed := if old.endTs = uint64Max then { old with endTs := commitTimestamp } else old
    ⟨newValue, commitTimestamp, uint64Max⟩ :: closed :: rest

namespace Demo

/-- `++global_ts`, on an `unsigned long` of 64 bits -/
def tick (d : Demo) : Demo :=
  { d with globalTs := (d.globalTs + 1) % 2 ^ 64 }

def commit (d : Demo) (newValue : Int) (commitTimestamp : Nat) : Demo :=
  { d with
    row := install d.row newValue commitTimestamp
    installed := (commitTimestamp, newValue) :: d.installed }

/-- `begin_tx` by thread `th` -/
def begin (d : Demo) (th : Nat) : Demo :=
  { d with
    snapshot := Function.update d.snapshot th (some d.globalTs)
    seen := Function.update d.seen th [] }

/-- `mvcc_read(row, s)` by thread `th` -/
def read (d : Demo) (th s : Nat) : Demo :=
  { d with seen := Function.update d.seen th (mvccRead d.row s :: d.seen th) }

end Demo

/-! ## Program -/

inductive Mutex
  | tx
  | row
  deriving DecidableEq

/-- The call that an idle thread makes next. -/
inductive Call
  | writeCommit (newValue : Int)
  | beginTx
  | read

inductive Pc
  | idle
  -- `mvcc_write_commit`, with `next_ts` inside
  | nextTsLock (newValue : Int)
  | nextTs (newValue : Int)
  | nextTsUnlock (newValue : Int) (t : Nat)
  | installLock (newValue : Int) (t : Nat)
  | install (newValue : Int) (t : Nat)
  | installUnlock
  -- `begin_tx`
  | beginLock
  | begin
  | beginUnlock
  -- `mvcc_read`
  | readLock
  | read
  | readUnlock
  deriving DecidableEq

/-- A reader reads only with a snapshot from `begin_tx`. -/
def idleStep (th : Nat) (d : Demo) : Call → Option (Demo × Pc)
  | .writeCommit v => some (d, .nextTsLock v)
  | .beginTx => some (d, .beginLock)
  | .read => (d.snapshot th).map fun _ => (d, .readLock)

def code : Pc → Instr Mutex Demo Pc Call
  | .idle => .act fun th call _ d => idleStep th d call
  | .nextTsLock v => .lock .tx noMark (.nextTs v)
  | .nextTs v => .act fun _ _ _ d => some (d.tick, .nextTsUnlock v d.tick.globalTs)
  | .nextTsUnlock v t => .unlock .tx (.installLock v t)
  | .installLock v t => .lock .row noMark (.install v t)
  | .install v t => .act fun _ _ _ d => some (d.commit v t, .installUnlock)
  | .installUnlock => .unlock .row .idle
  | .beginLock => .lock .tx noMark .begin
  | .begin => .act fun th _ _ d => some (d.begin th, .beginUnlock)
  | .beginUnlock => .unlock .tx .idle
  | .readLock => .lock .row noMark .read
  | .read => .act fun th _ _ d => (d.snapshot th).map fun s => (d.read th s, .readUnlock)
  | .readUnlock => .unlock .row .idle

def init (initialValue : Int) : Config Mutex Demo Pc :=
  Config.start (initialDemo initialValue) .idle

open List Function

/-! ## What the instructions do -/

inductive Acts (th : Nat) (d : Demo) : Pc → Demo → Pc → Prop
  | callWrite (v) : Acts th d .idle d (.nextTsLock v)
  | callBegin : Acts th d .idle d .beginLock
  | callRead : Acts th d .idle d .readLock
  | tick (v) : Acts th d (.nextTs v) d.tick (.nextTsUnlock v d.tick.globalTs)
  | install (v t) : Acts th d (.install v t) (d.commit v t) .installUnlock
  | begin : Acts th d .begin (d.begin th) .beginUnlock
  | read (s) (h : d.snapshot th = some s) : Acts th d .read (d.read th s) .readUnlock

variable {p p' : Pc} {d d' : Demo} {th e : Nat} {i : Call} {vs : List Version} {x : Int}

theorem acts_of_code {own : Mutex → Option Nat}
    {f : Nat → Call → (Mutex → Option Nat) → Demo → Option (Demo × Pc)}
    (hc : code p = .act f) (hf : f th i own d = some (d', p')) : Acts th d p d' p' := by
  cases p with
  | idle =>
    cases hc
    cases i with
    | writeCommit v =>
      cases hf
      exact .callWrite v
    | beginTx =>
      cases hf
      exact Acts.callBegin
    | read =>
      simp only [idleStep, Option.map_eq_some_iff] at hf
      rcases hf with ⟨_, _, rfl, rfl⟩
      exact Acts.callRead
  | nextTs v =>
    cases hc
    cases hf
    exact .tick v
  | install v t =>
    cases hc
    cases hf
    exact .install v t
  | begin =>
    cases hc
    cases hf
    exact Acts.begin
  | read =>
    cases hc
    simp only [Option.map_eq_some_iff] at hf
    rcases hf with ⟨s, hs, rfl, rfl⟩
    exact .read s hs
  | _ => cases hc

def held : Pc → List Mutex
  | .nextTs _ | .nextTsUnlock _ _ | .begin | .beginUnlock => [.tx]
  | .install _ _ | .installUnlock | .read | .readUnlock => [.row]
  | _ => []

def Stamped : Pc → Prop
  | .nextTsUnlock _ t | .installLock _ t | .install _ t => t ≤ uint64Max
  | _ => True

theorem Acts.stamped (h : Acts th d p d' p') : Stamped p' := by
  cases h with
  | tick v =>
    have hlt : (d.globalTs + 1) % 2 ^ 64 < 2 ^ 64 := Nat.mod_lt _ (by decide)
    exact Nat.le_sub_one_of_lt hlt
  | _ => trivial

/-- The mutexes guard single acts only, so an invariant of the data needs the acts alone. -/
def outlineOf (ok : Nat → Call → Demo → Pc → Prop) (inv : Demo → Prop)
    (hact : ∀ {th i d p d' p'}, Acts th d p d' p' → ok th i d p → Stamped p → inv d → inv d') :
    Outline code ok where
  held := held
  inv := inv
  res := fun _ _ => True
  loc := fun _ _ p => Stamped p
  lock_loc := by
    intro th d p m mark next hc hinv hp _ _
    cases p <;> cases hc <;> exact ⟨hinv, hp⟩
  lock_held := by
    intro th d p m mark next hc _ m'
    cases p <;> cases hc <;> simp [held]
  lock_res := by
    intros
    trivial
  lock_frame := by
    intro th d p m mark next u q _ _ _ _ _ _ _ hq
    exact hq
  unlock_loc := by
    intro th d p m next hc _ hp
    cases p <;> cases hc <;> exact ⟨trivial, hp⟩
  unlock_held := by
    intro th d p m next hc _
    cases p <;> cases hc <;> simp [held]
  act_loc := by
    intro th i own d p f d' p' hc hok hf hinv _ hp
    have h := acts_of_code hc hf
    exact ⟨hact h hok hp hinv, h.stamped⟩
  act_held := by
    intro th i own d p f d' p' hc hf _ m
    cases acts_of_code hc hf <;> rfl
  act_res := by
    intros
    trivial
  act_frame := by
    intro th i own d p f d' p' u q _ _ _ _ _ _ _ _ hq
    exact hq

theorem outlineOf_init {ok : Nat → Call → Demo → Pc → Prop} {inv : Demo → Prop}
    {hact : ∀ {th i d p d' p'}, Acts th d p d' p' → ok th i d p → Stamped p → inv d → inv d'}
    {v0 : Int} (h : inv (initialDemo v0)) : (outlineOf ok inv hact).Holds (init v0) :=
  Outline.Holds.start rfl h (fun _ => trivial) (fun _ => trivial)

/-! ## Chains of intervals -/

/-- `s` lies in the version's interval `[begin_ts, end_ts)`. -/
def Version.Has (v : Version) (s : Nat) : Prop :=
  v.beginTs ≤ s ∧ s < v.endTs

/-- `c` is the installed commit with the largest timestamp not above `s`. -/
def LatestCommit (installed : List (Nat × Int)) (s : Nat) (c : Nat × Int) : Prop :=
  c ∈ installed ∧ c.1 ≤ s ∧ ∀ c' ∈ installed, c' ≠ c → c'.1 ≤ s → c'.1 < c.1

/-- The version chain of the row as `mvcc_read` needs it. -/
structure ChainOk (d : Demo) : Prop where
  nonempty : ∀ v ∈ d.row, v.beginTs < v.endTs
  disjoint : d.row.Pairwise fun v w => ∀ s, ¬ (v.Has s ∧ w.Has s)
  cover : ∀ s, 1 ≤ s → s < uint64Max → ∃ v ∈ d.row, v.Has s
  latest : ∀ s, 1 ≤ s → s < uint64Max → ∃ c, LatestCommit d.installed s c ∧ mvccRead d.row s = c.2

/-- The versions, newest first, tile `[1, e)`. -/
def Tiles (e : Nat) : List Version → Prop
  | [] => e = 1
  | v :: vs => v.endTs = e ∧ v.beginTs < v.endTs ∧ Tiles v.beginTs vs

theorem Tiles.mem_bounds (h : Tiles e vs) : ∀ v ∈ vs, v.beginTs < v.endTs ∧ v.endTs ≤ e := by
  induction vs generalizing e with
  | nil =>
    nofun
  | cons w vs ih =>
    rcases h with ⟨hend, hlt, htail⟩
    intro v hv
    rcases mem_cons.1 hv with rfl | hv
    · exact ⟨hlt, hend.le⟩
    · rcases ih htail v hv with ⟨h1, h2⟩
      exact ⟨h1, by omega⟩

theorem Tiles.disjoint (h : Tiles e vs) : vs.Pairwise fun v w => ∀ s, ¬ (v.Has s ∧ w.Has s) := by
  induction vs generalizing e with
  | nil => exact List.Pairwise.nil
  | cons v vs ih =>
    rcases h with ⟨-, -, htail⟩
    refine pairwise_cons.2 ⟨?_, ih htail⟩
    rintro w hw s ⟨hv, hw'⟩
    -- everything older ends where `v` begins
    have hle := (htail.mem_bounds w hw).2
    exact absurd (lt_of_lt_of_le hw'.2 hle) (not_lt.2 hv.1)

theorem Tiles.cover (h : Tiles e vs) {s : Nat} (h1 : 1 ≤ s) (hs : s < e) : ∃ v ∈ vs, v.Has s := by
  induction vs generalizing e with
  | nil =>
    have : e = 1 := h
    omega
  | cons v vs ih =>
    rcases h with ⟨hend, -, htail⟩
    by_cases hv : v.beginTs ≤ s
    · exact ⟨v, by simp, hv, by omega⟩
    · rcases ih htail (not_le.1 hv) with ⟨w, hw, hs'⟩
      exact ⟨w, by simp [hw], hs'⟩

def Version.commit (v : Version) : Nat × Int :=
  (v.beginTs, v.value)

/-- `mvcc_read` on a tiled row finds the latest commit. -/
theorem Tiles.read_latest (h : Tiles e vs) {s : Nat} (h1 : 1 ≤ s)
    (hs : s < e) : ∃ c, LatestCommit (vs.map Version.commit) s c ∧ mvccRead vs s = c.2 := by
  induction vs generalizing e with
  | nil =>
    have : e = 1 := h
    omega
  | cons v vs ih =>
    rcases h with ⟨hend, hlt, htail⟩
    by_cases hv : v.beginTs ≤ s
    · refine ⟨v.commit, ⟨by simp, hv, ?_⟩, ?_⟩
      · intro c hc hne _
        rcases mem_map.1 hc with ⟨w, hw, rfl⟩
        rcases mem_cons.1 hw with rfl | hw
        · exact absurd rfl hne
        · have := htail.mem_bounds w hw
          exact lt_of_lt_of_le this.1 this.2
      · have hend' : s < v.endTs := by omega
        simp [mvccRead, hv, hend', Version.commit]
    · rcases ih htail (not_le.1 hv) with ⟨c, ⟨hmem, hle, hmax⟩, hread⟩
      refine ⟨c, ⟨by simpa using .inr (by simpa using hmem), hle, ?_⟩, ?_⟩
      · intro c' hc' hne hle'
        rcases mem_map.1 hc' with ⟨w, hw, rfl⟩
        rcases mem_cons.1 hw with rfl | hw
        · exact absurd hle' hv
        · exact hmax _ (mem_map.2 ⟨w, hw, rfl⟩) hne hle'
      · simpa [mvccRead, hv] using hread

/-! ## Installs -/

/-- The row's head is open, and the installed commits are those of the versions. -/
structure Headed (d : Demo) : Prop where
  open_head : ∃ v vs, d.row = v :: vs ∧ v.endTs = uint64Max
  commits : d.installed = d.row.map Version.commit

theorem install_open {v : Version} (hv : v.endTs = uint64Max) (x : Int) (t : Nat) :
    install (v :: vs) x t = ⟨x, t, uint64Max⟩ :: { v with endTs := t } :: vs := by
  simp [install, hv]

theorem Headed.commit (h : Headed d) (x : Int) (t : Nat) : Headed (d.commit x t) := by
  rcases h.open_head with ⟨v, vs, hrow, hv⟩
  have hinst : install d.row x t = ⟨x, t, uint64Max⟩ :: { v with endTs := t } :: vs := by
    rw [hrow]
    exact install_open hv x t
  refine ⟨⟨_, _, hinst, rfl⟩, ?_⟩
  simp only [Demo.commit, hinst, h.commits]
  simp [hrow, Version.commit]

theorem Acts.headed (h : Acts th d p d' p') (hd : Headed d) : Headed d' := by
  cases h with
  | install v t => exact hd.commit v t
  | tick v => exact ⟨hd.open_head, hd.commits⟩
  | begin => exact ⟨hd.open_head, hd.commits⟩
  | read s _ => exact ⟨hd.open_head, hd.commits⟩
  | _ => exact hd

/-- The side condition: a writer installs a timestamp above that of the head version, and below
`UINT64_MAX`. -/
def InOrder (_th : Nat) (_call : Call) (d : Demo) : Pc → Prop
  | .install _ t => (∀ old ∈ d.row.head?, old.beginTs < t) ∧ t < uint64Max
  | _ => True

theorem tiles_install {row : List Version} (h : Tiles uint64Max row) {t : Nat}
    (horder : ∀ old ∈ row.head?, old.beginTs < t) (ht : t < uint64Max) (hne : row ≠ []) :
    Tiles uint64Max (install row x t) := by
  cases row with
  | nil => exact absurd rfl hne
  | cons v vs =>
    rcases h with ⟨hend, -, htail⟩
    rw [install_open hend]
    exact ⟨rfl, ht, rfl, horder v (by simp), htail⟩

/-- Conversely, a chain that is in order after the install was extended in order. -/
theorem inOrder_of_install (h : Headed d) {t : Nat}
    (hok : ChainOk (d.commit x t)) : (∀ old ∈ d.row.head?, old.beginTs < t) ∧ t < uint64Max := by
  rcases h.open_head with ⟨v, vs, hrow, hv⟩
  have hinst : (d.commit x t).row = ⟨x, t, uint64Max⟩ :: { v with endTs := t } :: vs := by
    simp only [Demo.commit, hrow]
    exact install_open hv x t
  have hnew := hok.nonempty ⟨x, t, uint64Max⟩ (by simp [hinst])
  have hold := hok.nonempty { v with endTs := t } (by simp [hinst])
  refine ⟨?_, hnew⟩
  intro old hmem
  have : v = old := by simpa [hrow] using hmem
  subst this
  exact hold

/-! ## Runs -/

/-- The invariant of the runs whose installs are in order. -/
structure ChainInv (d : Demo) : Prop where
  tiles : Tiles uint64Max d.row
  headed : Headed d

theorem ChainInv.chainOk (h : ChainInv d) : ChainOk d where
  nonempty := fun v hv => (h.tiles.mem_bounds v hv).1
  disjoint := h.tiles.disjoint
  cover := fun _ h1 hs => h.tiles.cover h1 hs
  latest s h1 hs := by
    rw [h.headed.commits]
    exact h.tiles.read_latest h1 hs

theorem Acts.chainInv (h : Acts th d p d' p') (hok : InOrder th i d p) (hd : ChainInv d) :
    ChainInv d' := by
  refine ⟨?_, h.headed hd.headed⟩
  cases h with
  | install v t =>
    rcases hd.headed.open_head with ⟨w, ws, hrow, -⟩
    exact tiles_install hd.tiles hok.1 hok.2 (by simp [hrow])
  | _ => exact hd.tiles

theorem headed_initial (v0 : Int) : Headed (initialDemo v0) := ⟨⟨_, _, rfl, rfl⟩, rfl⟩

theorem chainInv_initial (v0 : Int) : ChainInv (initialDemo v0) :=
  ⟨⟨rfl, (by decide : 1 < uint64Max), rfl⟩, headed_initial v0⟩

/-- The outline of all runs, and that of the runs with installs in order. -/
def headedOutline : Outline code (fun _ _ _ _ => True) :=
  outlineOf _ Headed fun h _ _ hd => h.headed hd

def chainOutline : Outline code InOrder :=
  outlineOf _ ChainInv fun h hok _ hd => h.chainInv hok hd

theorem inOrder_of_step {c c' : Config Mutex Demo Pc}
    (h : headedOutline.Holds c) (hs : step code c (th, i) = some c') (hok : ChainOk c'.data) :
    InOrder th i c.data (c.pc th) := by
  cases hp : c.pc th with
  | install v t =>
    rcases step_cases hs with ⟨m, mark, next, hc, -, -⟩ | ⟨m, next, hc, -⟩ | ⟨f, d, p, hc, hf, rfl⟩
    · rw [hp] at hc
      cases hc
    · rw [hp] at hc
      cases hc
    · rw [hp] at hc
      cases hc
      cases hf
      exact inOrder_of_install h.inv hok
  | _ => trivial

/-- The row's intervals are non-empty, disjoint, cover `[1, UINT64_MAX)` and give every snapshot the
latest commit, in every state of a run, exactly when every install of the run is in order. -/
theorem chainOk_iff_inOrder (v0 : Int) (as : List (Nat × Call)) (c : Config Mutex Demo Pc)
    (h : run code (init v0) as = some c) :
    Always code (fun c => ChainOk c.data) (init v0) as ↔ Meets code InOrder (init v0) as := by
  constructor
  · intro halways
    have hstart : headedOutline.Holds (init v0) := outlineOf_init (headed_initial v0)
    exact meets_of_always (fun hJ hs => Outline.step_holds hJ trivial hs)
      (fun hJ hs hQ => inOrder_of_step hJ hs hQ) hstart h halways
  · intro hmeets
    have hstart : chainOutline.Holds (init v0) := outlineOf_init (chainInv_initial v0)
    have halways := always_of_meets (fun hJ hok hs => Outline.step_holds hJ hok hs) hstart hmeets
    exact halways.mono fun c hc => ChainInv.chainOk hc.inv

/-- One writer from its call to its return. -/
def oneWrite : List (Nat × Call) :=
  List.replicate 7 (0, .writeCommit 200)

theorem chainOk_oneWrite : Always code (fun c => ChainOk c.data) (init 100) oneWrite := by
  refine (chainOk_iff_inOrder 100 oneWrite _ rfl).2 ?_
  iterate 5 refine meets_cons rfl trivial ?_
  refine meets_cons rfl ⟨by decide, by decide⟩ ?_
  exact meets_cons rfl trivial trivial

/-- Thread `0` draws timestamp `2`, thread `1` draws `3` and installs first. -/
def overtaken : List (Nat × Call) :=
  List.flatten
    [List.replicate 4 (0, .writeCommit 200), List.replicate 7 (1, .writeCommit 300),
      List.replicate 3 (0, .writeCommit 200)]

/-- Not every run keeps the chain: after `overtaken` the version of timestamp `3` ends at `2`. -/
theorem chain_overtaken :
    ¬ ∀ (as : List (Nat × Call)) (c : Config Mutex Demo Pc), run code (init 100) as = some c →
      ChainOk c.data := by
  intro hall
  have hok := hall overtaken _ rfl
  have hne := hok.nonempty ⟨300, 3, 2⟩ (by decide)
  exact absurd hne (by decide)

/-! ## Snapshots -/

/-- The side condition: no reader has a snapshot at or above the timestamp that is installed. -/
def AboveSnapshots (_th : Nat) (_call : Call) (d : Demo) : Pc → Prop
  | .install _ t => ∀ u s, d.snapshot u = some s → s < t
  | _ => True

variable {s t th : Nat} {d : Demo}

/-- A version with a timestamp above `s` does not change what the snapshot `s` reads. -/
theorem mvccRead_install {v : Version} (hv : v.endTs = uint64Max) (x : Int)
    (hs : s < t) (ht : t ≤ uint64Max) :
    mvccRead (install (v :: vs) x t) s = mvccRead (v :: vs) s := by
  have hmax : s < uint64Max := lt_of_lt_of_le hs ht
  rw [install_open hv]
  simp [mvccRead, hv, hs, hmax]

/-- Every value that a reader has seen is the one its snapshot reads now. -/
structure SeenInv (d : Demo) : Prop where
  headed : Headed d
  seen : ∀ u s, d.snapshot u = some s → ∀ v ∈ d.seen u, v = mvccRead d.row s
  unseen : ∀ u, d.snapshot u = none → d.seen u = []

theorem SeenInv.commit (h : SeenInv d) (ht : t ≤ uint64Max)
    (habove : ∀ u s, d.snapshot u = some s → s < t) : SeenInv (d.commit x t) where
  headed := h.headed.commit x t
  seen u s hs v hv := by
    rcases h.headed.open_head with ⟨w, ws, hrow, hw⟩
    have hsame : mvccRead (install d.row x t) s = mvccRead d.row s := by
      rw [hrow]
      exact mvccRead_install hw x (habove u s hs) ht
    exact (h.seen u s hs v hv).trans hsame.symm
  unseen := h.unseen

theorem SeenInv.begin (h : SeenInv d) (th : Nat) : SeenInv (d.begin th) where
  headed := ⟨h.headed.open_head, h.headed.commits⟩
  seen u s hs v hv := by
    rcases eq_or_ne u th with rfl | hu
    · simp [Demo.begin] at hv
    · simp only [Demo.begin, update_of_ne hu] at hs hv
      exact h.seen u s hs v hv
  unseen u hs := by
    rcases eq_or_ne u th with rfl | hu
    · simp [Demo.begin]
    · simp only [Demo.begin, update_of_ne hu] at hs ⊢
      exact h.unseen u hs

theorem SeenInv.read (h : SeenInv d) (hs : d.snapshot th = some s) : SeenInv (d.read th s) where
  headed := ⟨h.headed.open_head, h.headed.commits⟩
  seen u s' hs' v hv := by
    have hs'' : d.snapshot u = some s' := hs'
    rcases eq_or_ne u th with rfl | hu
    · have : s = s' := Option.some.inj (hs.symm.trans hs'')
      subst this
      simp only [Demo.read, update_self, List.mem_cons] at hv
      rcases hv with rfl | hv
      · rfl
      · exact h.seen u s hs v hv
    · simp only [Demo.read, update_of_ne hu] at hv
      exact h.seen u s' hs'' v hv
  unseen u hu := by
    have hu' : d.snapshot u = none := hu
    have hne : u ≠ th := by
      rintro rfl
      simp [hs] at hu'
    simpa [Demo.read, hne] using h.unseen u hu'

theorem Acts.seenInv (h : Acts th d p d' p')
    (hok : AboveSnapshots th i d p) (hp : Stamped p) (hd : SeenInv d) : SeenInv d' := by
  cases h with
  | install v t => exact hd.commit hp hok
  | begin => exact hd.begin th
  | read s hs => exact hd.read hs
  | tick v => exact ⟨⟨hd.headed.open_head, hd.headed.commits⟩, hd.seen, hd.unseen⟩
  | _ => exact hd

def seenOutline : Outline code AboveSnapshots :=
  outlineOf _ SeenInv fun h hok hp hd => h.seenInv hok hp hd

theorem seenInv_initial (v0 : Int) : SeenInv (initialDemo v0) where
  headed := headed_initial v0
  seen u s hs := by
    cases hs
  unseen := fun _ _ => rfl

/-- In every run in which no version is installed at or below a snapshot in use, all values that a
reader has been returned for its snapshot are equal. -/
theorem seen_stable (v0 : Int) (as : List (Nat × Call)) (c : Config Mutex Demo Pc)
    (h : run code (init v0) as = some c) (hm : Meets code AboveSnapshots (init v0) as) :
    ∀ th, ∀ v ∈ c.data.seen th, ∀ w ∈ c.data.seen th, v = w := by
  have hstart : seenOutline.Holds (init v0) := outlineOf_init (seenInv_initial v0)
  have hinv : SeenInv c.data := (Outline.run_holds hstart hm h).inv
  intro th v hv w hw
  cases hs : c.data.snapshot th with
  | none => simp [hinv.unseen th hs] at hv
  | some s => rw [hinv.seen th s hs v hv, hinv.seen th s hs w hw]

/-- Reader `1` takes its snapshot and reads; writer `0` draws its timestamp and installs; the reader
reads again. -/
def readAround : List (Nat × Call) :=
  List.flatten
    [List.replicate 4 (1, .beginTx), List.replicate 4 (1, .read),
      List.replicate 7 (0, .writeCommit 200),
      List.replicate 4 (1, .read)]

theorem seen_stable_readAround : ∃ c, run code (init 100) readAround = some c ∧
    c.data.seen 1 = [100, 100] ∧ ∀ v ∈ c.data.seen 1, ∀ w ∈ c.data.seen 1, v = w := by
  refine ⟨_, rfl, rfl, seen_stable 100 readAround _ rfl ?_ 1⟩
  iterate 13 refine meets_cons rfl trivial ?_
  -- the install: the only snapshot is the one of thread `1`
  refine meets_cons rfl ?_ ?_
  · intro u s hs
    have hs' : update (fun _ => none) 1 (some 1) u = some s := hs
    rcases eq_or_ne u 1 with rfl | hu
    · cases hs'
      decide
    · simp [hu] at hs'
  · iterate 5 refine meets_cons rfl trivial ?_
    trivial

/-- Writer `0` draws timestamp `2`; reader `1` takes snapshot `2` and reads; the writer installs;
the reader reads again. -/
def readInGap : List (Nat × Call) :=
  List.flatten
    [List.replicate 4 (0, .writeCommit 200), List.replicate 4 (1, .beginTx),
      List.replicate 4 (1, .read),
      List.replicate 3 (0, .writeCommit 200),
      List.replicate 4 (1, .read)]

/-- Not every run keeps the reads of a snapshot equal: after `readInGap` they are `100` and
`200`. -/
theorem snapshot_unstable : ¬ ∀ (as : List (Nat × Call)) (c : Config Mutex Demo Pc),
    run code (init 100) as = some c → ∀ th, ∀ v ∈ c.data.seen th, ∀ w ∈ c.data.seen th, v = w := by
  intro hall
  have h := hall readInGap _ rfl 1 100 (by decide) 200 (by decide)
  exact absurd h (by decide)

end SystemsLab.MvccDemo
