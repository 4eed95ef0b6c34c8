import Mathlib.Data.List.Perm.Subperm
import Mathlib.Data.List.Range
import Mathlib.Data.List.TakeWhile
import SystemsLab.Data.FinishOrder
import SystemsLab.KeyStore.KeyTable

/-!
# `detect_cycle_and_pick_victim` of `deadlock_mutex_txn.c`

A depth-first search of the wait-for matrix with an explicit stack.  `waitFor v u` is
`wait_for[v][u]`, `startTs v` is `txns[v]->start_ts` (`none` where `txns[v]` is `NULL`) and `n` is
`next_txn_id`.

* `detectCycleAndPickVictim` — the victim, or `none` where the source returns `0`;
* `detectInBounds` — the same search, which fails at an index out of range and when it does not end;
* `detect_none` — if the search finds nothing, the matrix has no cycle.
-/

namespace SystemsLab.LockStore

open KeyStore (MAX_TXNS)
open Relation FinishOrder List Option

/-! ## The search -/

/-- `visited`, `recstack`, `path` (up to `path_len`) and `winner_victim`; `cycle_found` is set
together with `winner_victim`. -/
structure Search where
  visited : Nat → Bool
  recstack : Nat → Bool
  path : List Nat
  winner : Option Nat

namespace Search

def start : Search :=
  { visited := fun _ => false
    recstack := fun _ => false
    path := []
    winner := none }

/-- The first visit of the node on top of the stack. -/
def enter (s : Search) (v : Nat) : Search :=
  if s.visited v then s
  else
    { s with
      visited := Function.update s.visited v true
      recstack := Function.update s.recstack v true
      path := s.path ++ [v] }

/-- The node has no more edges. -/
def leave (s : Search) (v : Nat) : Search :=
  { s with
    recstack := Function.update s.recstack v false
    path := s.path.dropLast }

end Search

/-- `picked_victim` and `picked_ts` after the loop over the cycle's nodes. -/
def pickYoungest (startTs : Nat → Option Nat) : List Nat → Option (Nat × Nat) → Option (Nat × Nat)
  | [], picked => picked
  | node :: rest, picked =>
    match startTs node, picked with
    | none, _ => pickYoungest startTs rest picked
    | some ts, none => pickYoungest startTs rest (some (node, ts))
    | some ts, some (victim, pickedTs) =>
      pickYoungest startTs rest
        (if ts > pickedTs then some (node, ts) else some (victim, pickedTs))

/-- `picked_victim` for the edge from `v` back to `u`. -/
def pickVictim (startTs : Nat → Option Nat) (path : List Nat) (v u : Nat) : Option (Nat × Nat) :=
  match pickYoungest startTs (path.dropWhile (· ≠ u)) none with
  | some picked => some picked
  | none => (startTs v).map fun ts => (v, ts)

/-- `winner_victim` after a cycle with the victim `picked`; a winner is never `NULL`. -/
def pickWinner (startTs : Nat → Option Nat) (winner : Option Nat) (picked : Nat × Nat) : Nat :=
  match winner with
  | none => picked.1
  | some w => if (startTs w).all fun ts => picked.2 > ts then picked.1 else w

/-- The body of the `recstack[u]` branch. -/
def Search.backEdge (startTs : Nat → Option Nat) (s : Search) (v u : Nat) : Search :=
  match pickVictim startTs s.path v u with
  | none => s
  | some picked => { s with winner := some (pickWinner startTs s.winner picked) }

section

variable (waitFor : Nat → Nat → Bool) (startTs : Nat → Option Nat) (n : Nat)

/-- The edges of `v` from `u` on, `left` of them: the new `edge_idx` and the node to push. -/
def scanEdges (v : Nat) : Nat → Nat → Search → Search × Nat × Option Nat
  | 0, u, s => (s, u, none)
  | left + 1, u, s =>
    if waitFor v u then
      if s.visited u = false then (s, u + 1, some u)
      else if s.recstack u then scanEdges v left (u + 1) (s.backEdge startTs v u)
      else scanEdges v left (u + 1) s
    else scanEdges v left (u + 1) s

/-- The `while` loop on the stack of nodes and their `edge_idx`; `searchLoop_spec` shows that `2 *
n` rounds are enough. -/
def searchLoop : Nat → List (Nat × Nat) → Search → Search
  | 0, _, s => s
  | _ + 1, [], s => s
  | fuel + 1, (v, e) :: stack, s =>
    match scanEdges waitFor startTs v (n - e) e (s.enter v) with
    | (s', e', some u) => searchLoop fuel ((u, 0) :: (v, e') :: stack) s'
    | (s', _, none) => searchLoop fuel stack (s'.leave v)

/-- One round of the loop over `s`. -/
def searchFrom (s : Search) (root : Nat) : Search :=
  if startTs root = none then s
  else if s.visited root then s
  else searchLoop waitFor startTs n (2 * n) [(root, 0)] s

def detectCycleAndPickVictim : Option Nat :=
  ((List.range' 1 (n - 1)).foldl (searchFrom waitFor startTs n) Search.start).winner

/-! ## The search with its arrays -/

/-- The arrays of `detect_cycle_and_pick_victim` have `size` elements.  A round for `v` with `depth`
nodes below it uses `st_stack[depth]` and `edge_idx[depth]`, the places of `path` up to `path_len`,
the rows of `v` and of the nodes on the path, and the columns up to `n`; `path_len--` needs a node
on the path. -/
def inBounds (size depth v : Nat) (path : List Nat) : Bool :=
  n ≤ size ∧ depth < size ∧ path ≠ [] ∧ path.length ≤ size ∧ ∀ x ∈ v :: path, x < size

/-- `searchLoop`, which must end within its rounds. -/
def loopInBounds (size : Nat) : Nat → List (Nat × Nat) → Search → Option Search
  | _, [], s => some s
  | 0, _ :: _, _ => none
  | fuel + 1, (v, e) :: stack, s =>
    if inBounds n size stack.length v (s.enter v).path then
      match scanEdges waitFor startTs v (n - e) e (s.enter v) with
      | (s', e', some u) => loopInBounds size fuel ((u, 0) :: (v, e') :: stack) s'
      | (s', _, none) => loopInBounds size fuel stack (s'.leave v)
    else none

def fromInBounds (size : Nat) (s : Search) (root : Nat) : Option Search :=
  if size ≤ root then none
  else if startTs root = none then some s
  else if s.visited root then some s
  else loopInBounds waitFor startTs n size (2 * n) [(root, 0)] s

/-- The value that is returned and the victim. -/
def detectInBounds (size : Nat) : Option (Option Nat) :=
  ((List.range' 1 (n - 1)).foldlM (fromInBounds waitFor startTs n size) Search.start).map
    Search.winner

end

/-! ## The victim -/

variable {waitFor : Nat → Nat → Bool} {startTs : Nat → Option Nat} {n size left : Nat} {v u : Nat}
  {s : Search} {stack : List (Nat × Nat)} {done nodes : List Nat}

/-- The youngest transaction among the nodes, with its time. -/
def YoungestOf (startTs : Nat → Option Nat) (nodes : List Nat) : Option (Nat × Nat) → Prop
  | none => ∀ x ∈ nodes, startTs x = none
  | some (v, ts) => v ∈ nodes ∧ startTs v = some ts ∧
    ∀ x ∈ nodes, ∀ xts, startTs x = some xts → xts ≤ ts

theorem YoungestOf.skip {picked : Option (Nat × Nat)} (h : YoungestOf startTs nodes picked)
    (hnode : startTs v = none) : YoungestOf startTs (nodes ++ [v]) picked := by
  cases picked with
  | none => simpa [YoungestOf, or_imp, forall_and, hnode] using h
  | some picked => simpa [YoungestOf, or_imp, forall_and, hnode] using ⟨.inl h.1, h.2⟩

theorem YoungestOf.pick {ts : Nat} (hnode : startTs v = some ts)
    (hle : ∀ x ∈ nodes, ∀ xts, startTs x = some xts → xts ≤ ts) :
    YoungestOf startTs (nodes ++ [v]) (some (v, ts)) := by
  refine ⟨by simp, hnode, fun x hx xts hxts => ?_⟩
  rcases mem_append.1 hx with hx | hx
  · exact hle x hx xts hxts
  · rw [mem_singleton.1 hx, hnode] at hxts
    cases hxts
    exact le_refl _

theorem pickYoungest_spec {seen : List Nat} {picked : Option (Nat × Nat)}
    (h : YoungestOf startTs seen picked) :
    YoungestOf startTs (seen ++ nodes) (pickYoungest startTs nodes picked) := by
  induction nodes generalizing seen picked with
  | nil => rwa [append_nil]
  | cons node rest ih =>
    rw [append_cons]
    unfold pickYoungest
    split
    · rename_i hnode
      exact ih (h.skip hnode)
    · rename_i ts hnode
      refine ih (YoungestOf.pick hnode fun x hx xts hxts => ?_)
      rw [h x hx] at hxts
      cases hxts
    · rename_i ts victim pickedTs hnode
      apply ih
      split_ifs with hlt
      · exact .pick hnode fun x hx xts hxts => (h.2.2 x hx xts hxts).trans hlt.le
      · refine ⟨mem_append_left _ h.1, h.2.1, fun x hx xts hxts => ?_⟩
        rcases mem_append.1 hx with hx | hx
        · exact h.2.2 x hx xts hxts
        · rw [mem_singleton.1 hx, hnode] at hxts
          cases hxts
          exact not_lt.1 hlt

theorem pickVictim_spec {path : List Nat} {picked : Nat × Nat}
    (h : pickVictim startTs path v u = some picked) (hv : v ∈ path.dropWhile (· ≠ u)) :
    YoungestOf startTs (path.dropWhile (· ≠ u)) (some picked) := by
  have hyoungest : YoungestOf startTs ([] ++ path.dropWhile (· ≠ u))
      (pickYoungest startTs (path.dropWhile (· ≠ u)) none) := pickYoungest_spec nofun
  unfold pickVictim at h
  split at h
  · rename_i hp
    cases h
    rwa [hp] at hyoungest
  · rename_i hp
    rw [hp] at hyoungest
    rw [hyoungest v hv] at h
    cases h

theorem backEdge_fields (startTs : Nat → Option Nat) (s : Search) (v u : Nat) :
    (s.backEdge startTs v u).visited = s.visited ∧ (s.backEdge startTs v u).recstack = s.recstack ∧
      (s.backEdge startTs v u).path = s.path := by
  unfold Search.backEdge
  split <;> exact ⟨rfl, rfl, rfl⟩

/-- What the edges into the stack keep of the winner is kept by the loop over the edges. -/
theorem scanEdges_winner {P : Option Nat → Prop}
    (hback : ∀ (s' : Search) u, s'.path = s.path → s'.recstack = s.recstack → waitFor v u = true →
      s'.recstack u = true →
      P s'.winner → P (s'.backEdge startTs v u).winner) (h : P s.winner) :
    P (scanEdges waitFor startTs v left u s).1.winner := by
  induction left generalizing u s with
  | zero => exact h
  | succ left ih =>
    unfold scanEdges
    split
    · rename_i hedge
      split
      · exact h
      · split
        · rename_i hrec
          rcases backEdge_fields startTs s v u with ⟨-, hrecstack, hpath⟩
          exact ih (fun s' u hp hr => hback s' u (hp.trans hpath) (hr.trans hrecstack))
            (hback s u rfl rfl hedge hrec h)
        · exact ih hback h
    · exact ih hback h

/-- Each node of the list waits for the next one, and the last one for the first. -/
def Cycle (waitFor : Nat → Nat → Bool) (c : List Nat) : Prop :=
  ∃ u rest, c = u :: rest ∧ (c ++ [u]).IsChain fun a b => waitFor a b = true

theorem Cycle.transGen {c : List Nat} (h : Cycle waitFor c) :
    ∃ u, TransGen (fun a b => waitFor a b = true) u u := by
  rcases h with ⟨u, rest, rfl, hchain⟩
  have hpairs : (u :: rest ++ [u]).Pairwise (TransGen fun a b => waitFor a b = true) :=
    isChain_iff_pairwise.1 (hchain.imp fun _ _ hab => .single hab)
  exact ⟨u, (pairwise_cons.1 hpairs).1 u (by simp)⟩

theorem Cycle.exists_edge {c : List Nat} (h : Cycle waitFor c) (hv : v ∈ c) :
    ∃ u, waitFor v u = true := by
  rcases h with ⟨u, rest, rfl, hchain⟩
  rcases append_of_mem hv with ⟨before, after, hsplit⟩
  rw [hsplit, append_assoc] at hchain
  cases after with
  | nil => exact ⟨u, (isChain_cons_cons.1 (isChain_append.1 hchain).2.1).1⟩
  | cons x after => exact ⟨x, (isChain_cons_cons.1 (isChain_append.1 hchain).2.1).1⟩

def OnCycle (waitFor : Nat → Nat → Bool) (startTs : Nat → Option Nat) (w : Nat) : Prop :=
  ∃ c ts, Cycle waitFor c ∧ YoungestOf startTs c (some (w, ts))

/-- The path from `u` on is a cycle. -/
theorem backEdge_onCycle (hchain : s.path.IsChain fun a b => waitFor a b = true)
    (hlast : s.path.getLast? = some v) (hu : u ∈ s.path) (hedge : waitFor v u = true)
    (h : ∀ w, s.winner = some w → OnCycle waitFor startTs w) :
    ∀ w, (s.backEdge startTs v u).winner = some w → OnCycle waitFor startTs w := by
  have hne : s.path.dropWhile (· ≠ u) ≠ [] := by
    rw [ne_eq, dropWhile_eq_nil_iff]
    exact fun hall => absurd (hall u hu) (by simp)
  have hlast' : (s.path.dropWhile (· ≠ u)).getLast? = some v := by
    rwa [← takeWhile_append_dropWhile (p := (· ≠ u)) (l := s.path),
      getLast?_append_of_ne_nil _ hne] at hlast
  have hcycle : Cycle waitFor (s.path.dropWhile (· ≠ u)) := by
    have hhead := head_dropWhile_not (· ≠ u) hne
    refine ⟨u, (s.path.dropWhile (· ≠ u)).tail, ?_, ?_⟩
    · rw [decide_eq_false_iff_not, not_not] at hhead
      exact (cons_head_tail hne).symm.trans (by rw [hhead])
    · refine isChain_append.2 ⟨hchain.suffix (dropWhile_suffix _), isChain_singleton _,
        fun x hx y hy => ?_⟩
      rw [hlast'] at hx
      cases hx
      cases hy
      exact hedge
  unfold Search.backEdge
  split
  · exact h
  · rename_i picked hp
    have hpicked : OnCycle waitFor startTs picked.1 :=
      ⟨_, picked.2, hcycle, pickVictim_spec hp (mem_of_getLast? hlast')⟩
    intro w hw
    cases hw
    unfold pickWinner
    split
    · exact hpicked
    · rename_i old hold
      split
      · exact hpicked
      · exact h old hold

/-! ## Completeness -/

/-- What the `for` loop over the edges of `v` gives. -/
structure ScanSpec (waitFor : Nat → Nat → Bool) (v left u : Nat) (s : Search)
    (r : Search × Nat × Option Nat) : Prop where
  visited : r.1.visited = s.visited
  recstack : r.1.recstack = s.recstack
  path : r.1.path = s.path
  winner : r.1.winner = none → s.winner = none
  /-- As long as no cycle is found, the edges passed over lead to completed nodes. -/
  passed : r.1.winner = none → ∀ x, u ≤ x → x < r.2.1 → waitFor v x = true →
    (s.visited x = true ∧ s.recstack x = false) ∨ r.2.2 = some x
  finished : r.2.2 = none → r.2.1 = u + left
  next : ∀ y, r.2.2 = some y →
    waitFor v y = true ∧ s.visited y = false ∧ (u ≤ y ∧ y < u + left) ∧ r.2.1 = y + 1

/-- An edge into the stack is always recorded, since its source is a transaction. -/
theorem backEdge_winner (hv : startTs v ≠ none) : (s.backEdge startTs v u).winner ≠ none := by
  rcases ne_none_iff_exists'.1 hv with ⟨ts, hts⟩
  unfold Search.backEdge
  split
  · rename_i hp
    unfold pickVictim at hp
    split at hp
    · cases hp
    · simp [hts] at hp
  · simp

theorem ScanSpec.cons {r : Search × Nat × Option Nat} (h : ScanSpec waitFor v left (u + 1) s r)
    (hu : r.1.winner = none → waitFor v u = true →
      s.visited u = true ∧ s.recstack u = false) : ScanSpec waitFor v (left + 1) u s r where
  visited := h.visited
  recstack := h.recstack
  path := h.path
  winner := h.winner
  passed hw x hx hlt hedge := by
    rcases eq_or_lt_of_le hx with rfl | hx
    · exact .inl (hu hw hedge)
    · exact h.passed hw x hx hlt hedge
  finished hnone := by
    have := h.finished hnone
    omega
  next y hy := by
    rcases h.next y hy with ⟨hedge, hvis, ⟨hge, hlt⟩, he⟩
    exact ⟨hedge, hvis, by omega, he⟩

theorem scanEdges_spec (hsource : ∀ a b, waitFor a b = true → startTs a ≠ none) (v left u : Nat)
    (s : Search) :
    ScanSpec waitFor v left u s (scanEdges waitFor startTs v left u s) := by
  induction left generalizing u s with
  | zero =>
    refine ⟨rfl, rfl, rfl, fun h => h, ?_, fun _ => rfl, ?_⟩
    · intro _ x hx hlt _
      exact absurd hlt (not_lt.2 hx)
    · nofun
  | succ left ih =>
    unfold scanEdges
    split
    · rename_i hedge
      split
      · -- an unvisited node: stop here and push it
        rename_i hvis
        refine ⟨rfl, rfl, rfl, fun h => h, ?_, ?_, ?_⟩
        · intro _ x hx hlt _
          have hxu : u = x := le_antisymm hx (Nat.lt_succ_iff.1 hlt)
          exact .inr (by rw [hxu])
        · nofun
        · intro y hy
          cases hy
          exact ⟨hedge, hvis, by omega, rfl⟩
      · rename_i hvis
        have hvis' : s.visited u = true := by simpa using hvis
        split
        · -- an edge back into the stack: from here on there is a winner
          rcases backEdge_fields startTs s v u with ⟨h1, h2, h3⟩
          have hrec := ih (u + 1) (s.backEdge startTs v u)
          have hsome := backEdge_winner (s := s) (u := u) (hsource v u hedge)
          refine ScanSpec.cons ⟨hrec.visited.trans h1, hrec.recstack.trans h2,
            hrec.path.trans h3, ?_, ?_, hrec.finished, ?_⟩ ?_
          · exact fun hw => absurd (hrec.winner hw) hsome
          · exact fun hw => absurd (hrec.winner hw) hsome
          · simpa [h1] using hrec.next
          · exact fun hw => absurd (hrec.winner hw) hsome
        · rename_i hrec
          refine (ih (u + 1) s).cons fun _ _ => ⟨hvis', by simpa using hrec⟩
    · rename_i hedge
      exact (ih (u + 1) s).cons fun _ he => absurd he hedge

/-- The edge relation that the search follows. -/
def Edge (waitFor : Nat → Nat → Bool) (n v u : Nat) : Prop :=
  waitFor v u = true ∧ u < n

/-- Below `edge_idx`, every edge of a node on the stack leads to a completed node or to `child`, the
node above it. -/
def FramesOk (waitFor : Nat → Nat → Bool) (done : List Nat) : Option Nat → List (Nat × Nat) → Prop
  | _, [] => True
  | child, (v, e) :: rest =>
    (∀ u, u < e → waitFor v u = true → u ∈ done ∨ child = some u) ∧
      FramesOk waitFor done (some v) rest

theorem FramesOk.complete {child child' : Option Nat} (h : FramesOk waitFor done child stack)
    (hchild : ∀ u, child = some u → u ∈ v :: done ∨ child' = some u) :
    FramesOk waitFor (v :: done) child' stack := by
  induction stack generalizing child child' with
  | nil => trivial
  | cons top rest ih =>
    refine ⟨?_, ih h.2 fun u hu => .inr hu⟩
    intro u hu hedge
    rcases h.1 u hu hedge with hmem | heq
    · exact .inl (mem_cons_of_mem _ hmem)
    · exact hchild u heq

/-- The state of the search: `done` are the completed nodes, the last one first, and `child` is
about to be pushed. -/
structure Entered (waitFor : Nat → Nat → Bool) (startTs : Nat → Option Nat) (n : Nat) (s : Search)
    (child : Option Nat) (stack : List (Nat × Nat)) (done : List Nat) : Prop where
  visited : ∀ v, s.visited v = true ↔ v ∈ done ∨ v ∈ stack.map Prod.fst
  recstack : ∀ v, s.recstack v = true ↔ v ∈ stack.map Prod.fst
  nodup : (done ++ stack.map Prod.fst).Nodup
  lt : ∀ v ∈ done ++ stack.map Prod.fst, v < n
  closed : s.winner = none → Closed (Edge waitFor n) done
  frames : s.winner = none → FramesOk waitFor done child stack
  path : s.path = (stack.map Prod.fst).reverse
  chain : s.path.IsChain fun a b => waitFor a b = true
  onCycle : ∀ w, s.winner = some w → OnCycle waitFor startTs w

namespace Entered

variable {child : Option Nat} {e y : Nat}

theorem length_le (h : Entered waitFor startTs n s child stack done) :
    done.length + stack.length ≤ n := by
  have hsub : done ++ stack.map Prod.fst ⊆ List.range n := fun x hx => mem_range.2 (h.lt x hx)
  simpa using (h.nodup.subperm hsub).length_le

theorem mem_done (h : Entered waitFor startTs n s child stack done) {x : Nat}
    (hx : s.visited x = true ∧ s.recstack x = false) : x ∈ done := by
  rcases (h.visited x).1 hx.1 with hmem | hmem
  · exact hmem
  · have := (h.recstack x).2 hmem
    simp [this] at hx

theorem getLast_path (h : Entered waitFor startTs n s child ((v, e) :: stack) done) :
    s.path.getLast? = some v := by
  rw [h.path, map_cons, reverse_cons, getLast?_concat]

/-- The scan of the top node, which ends at its next unvisited successor. -/
theorem scan (h : Entered waitFor startTs n s none ((v, e) :: stack) done)
    {r : Search × Nat × Option Nat} (hr : ScanSpec waitFor v left e s r)
    (hon : ∀ w, r.1.winner = some w → OnCycle waitFor startTs w) :
    Entered waitFor startTs n r.1 r.2.2 ((v, r.2.1) :: stack) done where
  visited := hr.visited ▸ h.visited
  recstack := hr.recstack ▸ h.recstack
  nodup := h.nodup
  lt := h.lt
  closed hw := h.closed (hr.winner hw)
  frames hw := by
    have hold := h.frames (hr.winner hw)
    refine ⟨fun u hu hedge => ?_, hold.2⟩
    by_cases hue : u < e
    · exact .inl ((hold.1 u hue hedge).resolve_right (by simp))
    · exact (hr.passed hw u (not_lt.1 hue) hu hedge).imp_left h.mem_done
  path := hr.path ▸ h.path
  chain := hr.path ▸ h.chain
  onCycle := hon

theorem push (h : Entered waitFor startTs n s child stack done)
    (hvis : s.visited y = false) (hlt : y < n)
    (hframes : s.winner = none → FramesOk waitFor done (some y) stack)
    (hedge : ∀ v, s.path.getLast? = some v → waitFor v y = true) :
    Entered waitFor startTs n (s.enter y) none ((y, 0) :: stack) done := by
  have hfresh : y ∉ done ++ stack.map Prod.fst := by
    intro hmem
    have := (h.visited y).2 (mem_append.1 hmem)
    simp [hvis] at this
  have hperm : (done ++ y :: stack.map Prod.fst).Perm (y :: (done ++ stack.map Prod.fst)) :=
    perm_middle
  simp only [Search.enter, hvis]
  refine ⟨fun x => ?_, fun x => ?_, hperm.nodup_iff.2 (nodup_cons.2 ⟨hfresh, h.nodup⟩),
    fun x hx => ?_, h.closed,
    fun hw => ⟨fun u hu => absurd hu (Nat.not_lt_zero u), hframes hw⟩, by simp [h.path],
      ?_, h.onCycle⟩
  · have := h.visited x
    by_cases hx : x = y <;> simp [hx, this]
  · have := h.recstack x
    by_cases hx : x = y <;> simp [hx, this]
  · rcases mem_cons.1 (hperm.mem_iff.1 hx) with rfl | hx
    · exact hlt
    · exact h.lt x hx
  · refine isChain_append.2 ⟨h.chain, isChain_singleton _, fun a ha b hb => ?_⟩
    cases hb
    exact hedge a ha

theorem pop (h : Entered waitFor startTs n s none ((v, e) :: stack) done) (he : n ≤ e) :
    Entered waitFor startTs n (s.leave v) none stack (v :: done) := by
  have hperm : (done ++ v :: stack.map Prod.fst).Perm (v :: done ++ stack.map Prod.fst) :=
    perm_middle
  have hnodup : (v :: done ++ stack.map Prod.fst).Nodup := hperm.nodup_iff.1 h.nodup
  have hv : v ∉ stack.map Prod.fst := fun hmem => (nodup_cons.1 hnodup).1 (mem_append_right _ hmem)
  have hpath : s.path = (stack.map Prod.fst).reverse ++ [v] := by
    rw [h.path, map_cons, reverse_cons]
  have hleave : (s.leave v).path = (stack.map Prod.fst).reverse := by
    rw [Search.leave, hpath, dropLast_concat]
  refine ⟨fun x => ?_, fun x => ?_, hnodup, fun x hx => h.lt x (hperm.mem_iff.2 hx),
    fun hw => ?_, fun hw => ?_,
    hleave, ?_, h.onCycle⟩
  · have := h.visited x
    simp only [map_cons, mem_cons] at this ⊢
    tauto
  · rcases eq_or_ne x v with rfl | hx
    · simpa [Search.leave] using hv
    · simpa [Search.leave, hx] using h.recstack x
  · -- all successors of `v` are completed, so it may be
    refine ⟨fun u hu => ?_, h.closed hw⟩
    exact ((h.frames hw).1 u (hu.2.trans_le he) hu.1).resolve_right (by simp)
  · refine (h.frames hw).2.complete fun u hu => ?_
    cases hu
    exact .inl mem_cons_self
  · have hchain := h.chain
    rw [hpath] at hchain
    rw [hleave]
    exact (isChain_append.1 hchain).1

variable (h : Entered waitFor startTs n s child ((v, e) :: stack) done)

include h

theorem scan_onCycle (left u : Nat) :
    ∀ w, (scanEdges waitFor startTs v left u s).1.winner = some w → OnCycle waitFor startTs w := by
  refine scanEdges_winner (P := fun winner => ∀ w, winner = some w → OnCycle waitFor startTs w)
    (fun s' x hpath hrec hedge hx hs' => ?_) h.onCycle
  rw [hrec, h.recstack] at hx
  have hmem : x ∈ s'.path := by rwa [hpath, h.path, mem_reverse]
  exact backEdge_onCycle (hpath ▸ h.chain) (hpath ▸ h.getLast_path) hmem hedge hs'

theorem inBounds (hn : n ≤ size) : inBounds n size stack.length v s.path := by
  have hlen := h.length_le
  have hpath : s.path.length = stack.length + 1 := by simp [h.path]
  have hlt : ∀ x ∈ v :: s.path, x < size := by
    intro x hx
    have hmem : x ∈ done ++ ((v, e) :: stack).map Prod.fst := by
      rw [h.path] at hx
      simp only [map_cons, mem_append, mem_cons, mem_reverse] at hx ⊢
      tauto
    exact lt_of_lt_of_le (h.lt x hmem) hn
  rw [length_cons] at hlen
  rw [LockStore.inBounds, decide_eq_true_eq]
  refine ⟨hn, by omega, fun hnil => ?_, by omega, hlt⟩
  rw [hnil] at hpath
  cases hpath

theorem enter_self : s.enter v = s := by
  have hvis : s.visited v = true := (h.visited v).2 (.inr (by simp))
  simp [Search.enter, hvis]

end Entered

/-- The state at the head of the `while` loop, where the top node may not be entered yet. -/
def Ready (waitFor : Nat → Nat → Bool) (startTs : Nat → Option Nat) (n : Nat) (s : Search)
    (done : List Nat) :
    List (Nat × Nat) → Prop
  | [] => Entered waitFor startTs n s none [] done
  | (v, e) :: stack => Entered waitFor startTs n (s.enter v) none ((v, e) :: stack) done

theorem Entered.ready (h : Entered waitFor startTs n s none stack done) :
    Ready waitFor startTs n s done stack := by
  cases stack with
  | nil => exact h
  | cons top stack =>
    rwa [Ready, h.enter_self]

section

variable (hsource : ∀ a b, waitFor a b = true → startTs a ≠ none)

include hsource

/-- The `while` loop empties its stack inside the arrays: every round pushes a new node or completes
one. -/
theorem searchLoop_spec {fuel : Nat} (hn : n ≤ size) (h : Ready waitFor startTs n s done stack)
    (hfuel : 2 * (n - (done.length + stack.length)) + stack.length ≤ fuel) :
    loopInBounds waitFor startTs n size fuel stack s =
      some (searchLoop waitFor startTs n fuel stack s) ∧
      ∃ done', Entered waitFor startTs n (searchLoop waitFor startTs n fuel stack s) none [] done' ∧
        ∀ v, v ∈ done ∨ v ∈ stack.map Prod.fst → v ∈ done' := by
  induction fuel generalizing stack s done with
  | zero =>
    have hnil : stack = [] := eq_nil_of_length_eq_zero (by omega)
    subst hnil
    exact ⟨rfl, done, h, by simp⟩
  | succ fuel ih =>
    cases stack with
    | nil => exact ⟨rfl, done, h, by simp⟩
    | cons top stack =>
      rcases top with ⟨v, e⟩
      have hent : Entered waitFor startTs n (s.enter v) none ((v, e) :: stack) done := h
      have hr := scanEdges_spec hsource v (n - e) e (s.enter v)
      have hscanned := hent.scan hr (hent.scan_onCycle (n - e) e)
      have hlen := hent.length_le
      simp only [length_cons] at hfuel hlen
      rw [loopInBounds, if_pos (hent.inBounds hn), searchLoop]
      rcases hscan : scanEdges waitFor startTs v (n - e) e (s.enter v) with ⟨s', e', - | u⟩
      · rw [hscan] at hr hscanned
        have hend : n ≤ e' := by
          have := hr.finished rfl
          dsimp only at this
          omega
        have hpop := hscanned.pop hend
        rcases ih hpop.ready (by simp only [length_cons]; omega) with ⟨hloop, done', hdone, hsub⟩
        refine ⟨hloop, done', hdone, fun x hx => hsub x ?_⟩
        simp only [map_cons, mem_cons] at hx ⊢
        tauto
      · rw [hscan] at hr hscanned
        rcases hr.next u rfl with ⟨hnext, hvis, hrange, -⟩
        have hready : Ready waitFor startTs n s' done ((u, 0) :: (v, e') :: stack) :=
          hscanned.push (hr.visited ▸ hvis) (by omega) hscanned.frames fun a ha => by
            rw [hscanned.getLast_path] at ha
            cases ha
            exact hnext
        have hlen' := Entered.length_le hready
        simp only [length_cons] at hlen'
        rcases ih hready (by simp only [length_cons]; omega) with ⟨hloop, done', hdone, hsub⟩
        refine ⟨hloop, done', hdone, fun x hx => hsub x ?_⟩
        rcases hx with hx | hx
        · exact .inl hx
        · exact .inr (mem_cons_of_mem _ hx)

theorem searchFrom_spec {root : Nat}
    (hn : n ≤ size) (hroot : root < n) (h : Entered waitFor startTs n s none [] done) :
    fromInBounds waitFor startTs n size s root = some (searchFrom waitFor startTs n s root) ∧
      ∃ done', Entered waitFor startTs n (searchFrom waitFor startTs n s root) none [] done' ∧
        (∀ v ∈ done, v ∈ done') ∧ (startTs root ≠ none → root ∈ done') := by
  rw [fromInBounds, if_neg (not_le.2 (lt_of_lt_of_le hroot hn)), searchFrom]
  split
  · rename_i hnull
    exact ⟨rfl, done, h, fun _ hv => hv, fun hne => absurd hnull hne⟩
  · split
    · rename_i hvis
      have hmem : root ∈ done := by simpa using (h.visited root).1 hvis
      exact ⟨rfl, done, h, fun _ hv => hv, fun _ => hmem⟩
    · rename_i hvis
      have hready : Ready waitFor startTs n s done [(root, 0)] :=
        h.push (by simpa using hvis) hroot (fun _ => trivial) (by simp [h.path])
      have hfuel : 2 * (n - (done.length + 1)) + 1 ≤ 2 * n := by omega
      rcases searchLoop_spec hsource hn hready hfuel with ⟨hloop, done1, hdone, hsub⟩
      exact ⟨hloop, done1, hdone, fun v hv => hsub v (.inl hv), fun _ => hsub root (by simp)⟩

/-- After the loop over the roots, every transaction among them is completed. -/
theorem foldl_searchFrom_spec {roots : List Nat} (hroots : ∀ v ∈ roots, v < n) (hn : n ≤ size)
    (h : Entered waitFor startTs n s none [] done) :
    roots.foldlM (fromInBounds waitFor startTs n size) s =
        some (roots.foldl (searchFrom waitFor startTs n) s) ∧
      ∃ done', Entered waitFor startTs n (roots.foldl (searchFrom waitFor startTs n) s)
        none [] done' ∧
        (∀ v ∈ done, v ∈ done') ∧ ∀ v ∈ roots, startTs v ≠ none → v ∈ done' := by
  induction roots generalizing s done with
  | nil => exact ⟨rfl, done, h, fun _ hv => hv, by simp⟩
  | cons root roots ih =>
    rcases searchFrom_spec hsource hn (hroots root mem_cons_self) h
      with ⟨hfrom, done1, hent, hkeep, hmem⟩
    rcases ih (fun v hv => hroots v (mem_cons_of_mem _ hv)) hent
      with ⟨hall, done', hdone, hkeep', hdone'⟩
    refine ⟨by rw [foldlM_cons, hfrom]; exact hall, done', hdone,
      fun v hv => hkeep' v (hkeep v hv), ?_⟩
    intro v hv hknown
    rcases mem_cons.1 hv with rfl | hv
    · exact hkeep' v (hmem hknown)
    · exact hdone' v hv hknown

/-- A victim lies on a cycle; without one, every known transaction is in a closed duplicate-free
list. -/
theorem detect_spec (hn : n ≤ size) :
    detectInBounds waitFor startTs n size = some (detectCycleAndPickVictim waitFor startTs n) ∧
      (∀ w, detectCycleAndPickVictim waitFor startTs n = some w → OnCycle waitFor startTs w) ∧
      (detectCycleAndPickVictim waitFor startTs n = none →
        ∃ done, done.Nodup ∧ Closed (Edge waitFor n) done ∧
        ∀ v, 1 ≤ v → v < n → startTs v ≠ none → v ∈ done) := by
  have hstart : Entered waitFor startTs n Search.start none [] [] :=
    ⟨by simp [Search.start], by simp [Search.start], nodup_nil, by simp, fun _ => trivial,
      fun _ => trivial, rfl,
      isChain_nil, fun w hw => (nomatch hw)⟩
  have hroots : ∀ v ∈ List.range' 1 (n - 1), v < n := by
    intro v hv
    have := mem_range'_1.1 hv
    omega
  rcases foldl_searchFrom_spec hsource hroots hn hstart with ⟨hfold, done, hent, -, hall⟩
  refine ⟨by rw [detectInBounds, hfold]; rfl, hent.onCycle, fun hnone => ?_⟩
  refine ⟨done, by simpa using hent.nodup, hent.closed hnone, fun v hpos hlt => hall v ?_⟩
  exact mem_range'_1.2 (by omega)

theorem detect_known (h : detectCycleAndPickVictim waitFor startTs n = some v) :
    startTs v ≠ none := by
  rcases (detect_spec hsource (le_refl n)).2.1 v h with ⟨c, ts, -, -, hts, -⟩
  simp [hts]

/-- A search that finds no victim has seen that no transaction waits for itself, however
indirectly. -/
theorem detect_none (hlt : ∀ a b, waitFor a b = true → (1 ≤ a ∧ a < n) ∧ b < n)
    (h : detectCycleAndPickVictim waitFor startTs n = none) (v : Nat) :
    ¬ TransGen (fun a b => waitFor a b = true) v v := by
  rcases (detect_spec hsource (le_refl n)).2.2 h with ⟨done, hnodup, hclosed, hall⟩
  intro hcycle
  -- the cycle leaves `v` by an edge, so `v` is a transaction and has been completed
  rcases TransGen.head'_iff.1 hcycle with ⟨u, hvu, -⟩
  have hv : v ∈ done := hall v (hlt v u hvu).1.1 (hlt v u hvu).1.2 (hsource v u hvu)
  exact hclosed.not_transGen_self hnodup hv (hcycle.lift id fun a b hab => ⟨hab, (hlt a b hab).2⟩)

end

/-- With transactions `1 … n-1` and a matrix over them, the search stays inside its arrays and ends,
it finds a victim exactly if there is a cycle, and the victim has the largest `start_ts` of a cycle.
-/
theorem cycle_detection_exact (hn : n ≤ MAX_TXNS) (htxns : ∀ v, 1 ≤ v → v < n → startTs v ≠ none)
    (hdistinct : ∀ v u, startTs v ≠ none → startTs v = startTs u → v = u)
    (hover : ∀ a b, waitFor a b = true → (1 ≤ a ∧ a < n) ∧ 1 ≤ b ∧ b < n) :
    detectInBounds waitFor startTs n MAX_TXNS = some (detectCycleAndPickVictim waitFor startTs n) ∧
      ((detectCycleAndPickVictim waitFor startTs n).isSome ↔ ∃ c, Cycle waitFor c) ∧
      ∀ w, detectCycleAndPickVictim waitFor startTs n = some w → ∃ c ts, Cycle waitFor c ∧ w ∈ c ∧
        startTs w = some ts ∧ ∀ x ∈ c, x ≠ w → ∃ xts, startTs x = some xts ∧ xts < ts := by
  have hsource : ∀ a b, waitFor a b = true → startTs a ≠ none := fun a b hab =>
    htxns a (hover a b hab).1.1 (hover a b hab).1.2
  rcases detect_spec hsource hn with ⟨hin, hon, -⟩
  refine ⟨hin, ⟨fun hsome => ?_, ?_⟩, fun w hw => ?_⟩
  · rcases isSome_iff_exists.1 hsome with ⟨w, hw⟩
    rcases hon w hw with ⟨c, -, hc, -⟩
    exact ⟨c, hc⟩
  · rintro ⟨c, hc⟩
    rcases hc.transGen with ⟨u, hu⟩
    by_contra hnone
    rw [not_isSome_iff_eq_none] at hnone
    exact detect_none hsource (fun a b hab => ⟨(hover a b hab).1, (hover a b hab).2.2⟩) hnone u hu
  · rcases hon w hw with ⟨c, ts, hc, hmem, hts, hle⟩
    refine ⟨c, ts, hc, hmem, hts, fun x hx hne => ?_⟩
    rcases hc.exists_edge hx with ⟨y, hxy⟩
    rcases ne_none_iff_exists'.1 (hsource x y hxy) with ⟨xts, hxts⟩
    refine ⟨xts, hxts, lt_of_le_of_ne (hle x hx xts hxts) fun heq => hne ?_⟩
    exact hdistinct x w (hsource x y hxy) (by rw [hxts, hts, heq])

/-- Transactions 1 and 2 wait for each other, and 3 waits for 1. -/
def twoCycle (a b : Nat) : Bool := (a, b) ∈ [(1, 2), (2, 1), (3, 1)]

def threeTxns (v : Nat) : Option Nat := if 1 ≤ v ∧ v < 4 then some (v + 10) else none

theorem cycle_detection_demo : detectCycleAndPickVictim twoCycle threeTxns 4 = some 2 ∧
      detectInBounds twoCycle threeTxns 4 MAX_TXNS = some (some 2) ∧ ∃ c, Cycle twoCycle c := by
  have hdetect : detectCycleAndPickVictim twoCycle threeTxns 4 = some 2 := by decide
  have hover : ∀ a b, twoCycle a b = true → (1 ≤ a ∧ a < 4) ∧ 1 ≤ b ∧ b < 4 := by
    intro a b hab
    simp only [twoCycle, mem_cons, Prod.mk.injEq, not_mem_nil, or_false, decide_eq_true_eq] at hab
    omega
  have hdistinct : ∀ v u, threeTxns v ≠ none → threeTxns v = threeTxns u → v = u := by
    intro v u hv heq
    simp only [threeTxns] at hv heq
    split at heq
    · split at heq
      · simpa using heq
      · cases heq
    · rename_i hno
      exact absurd (if_neg hno) hv
  have hexact := cycle_detection_exact (by decide : 4 ≤ MAX_TXNS)
    (fun v hpos hlt => by simp [threeTxns, hpos, hlt]) hdistinct hover
  exact ⟨hdetect, hexact.1, hexact.2.1.1 rfl⟩

end SystemsLab.LockStore
