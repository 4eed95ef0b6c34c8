import SystemsLab.Data.PullIterator

/-!
# SELECT name, age FROM students WHERE age > 18 [LIMIT n]

Embeds the table scan, filter, limit and projection operators of `modular_operator_chaining.c`, the
pipeline without a limit of `iterator_based_execution.c`, and the loop of
`query_execution_engine.c`, each over an arbitrary table.
-/

namespace SystemsLab.QueryEngine

open PullIterator List

structure Student where
  name : String
  age : Int
  city : String

def project (row : Student) : String × Int := (row.name, row.age)

def isAdult (row : Student) : Bool := decide (row.age > 18)

/-! ## The scan and the filter, the same in both iterator programs -/

/-- The globals of the scan and of the filter.  `current_index` is only ever set to zero and
incremented. -/
structure Cursor where
  current_index : Nat
  current_row : Option Student

def tableScanOpen (c : Cursor) : Cursor := { c with current_index := 0 }

def tableScanNext (table : List Student) (c : Cursor) : Cursor × Option Student :=
  if c.current_index ≥ table.length then (c, none)
  else ({ c with current_index := c.current_index + 1 }, table[c.current_index]?)

theorem tableScanNext_some {table : List Student} {c c' : Cursor} {row : Student}
    (h : tableScanNext table c = (c', some row)) :
    table[c.current_index]? = some row ∧ c' = { c with current_index := c.current_index + 1 } := by
  unfold tableScanNext at h
  split at h
  · simp at h
  · rcases Prod.mk.inj h with ⟨rfl, hrow⟩
    exact ⟨hrow, rfl⟩

def filterOpen (c : Cursor) : Cursor := tableScanOpen c

def filterNext (table : List Student) (c : Cursor) : Cursor × Option Student :=
  match _hscan : tableScanNext table c with
  | (c', none) => ({ c' with current_row := none }, none)
  | (c', some row) =>
    if row.age > 18 then ({ c' with current_row := some row }, some row)
    else filterNext table { c' with current_row := some row }
termination_by table.length - c.current_index
decreasing_by
  rcases tableScanNext_some _hscan with ⟨hrow, rfl⟩
  have hlt := List.getElem?_eq_some_iff.1 hrow |>.1
  simp only
  omega

/-! ## The limit and the projection of `modular_operator_chaining.c` -/

structure Operators where
  cursor : Cursor
  limit_count : Int

def limitOpen (s : Operators) : Operators := { cursor := filterOpen s.cursor, limit_count := 0 }

def limitNext (table : List Student) (limit_value : Int) (s : Operators) :
    Operators × Option Student :=
  if s.limit_count ≥ limit_value then (s, none)
  else
    match filterNext table s.cursor with
    | (c, none) => ({ s with cursor := c }, none)
    | (c, some row) => ({ cursor := c, limit_count := s.limit_count + 1 }, some row)

def projectionOpen (s : Operators) : Operators := limitOpen s

/-- The rows printed by the loop.  It makes at most one call more than the table has rows. -/
def projectionNext (table : List Student) (limit_value : Int) (s : Operators) :
    Option (Operators × List (String × Int)) :=
  (drain (limitNext table limit_value) (table.length + 1) s).map fun r => (r.1, r.2.map project)

/-! ## The projection of `iterator_based_execution.c` -/

namespace Unlimited

def projectionOpen (c : Cursor) : Cursor := filterOpen c

def projectionNext (table : List Student) (c : Cursor) : Option (Cursor × List (String × Int)) :=
  (drain (filterNext table) (table.length + 1) c).map fun r => (r.1, r.2.map project)

end Unlimited

/-! ## The loop of `query_execution_engine.c` -/

namespace Loop

def tableScan (students : List Student) (index : Nat) : Option Student :=
  if index < students.length then students[index]? else none

def filter (input : Student) : Option Student := if input.age > 18 then some input else none

def main (students : List Student) : List (String × Int) :=
  (List.range students.length).filterMap fun i => ((tableScan students i).bind filter).map project

theorem main_eq (students : List Student) :
    main students = (students.filter isAdult).map project := by
  have hscan : (range students.length).map (tableScan students) = students.map some := by
    apply ext_getElem?
    intro i
    by_cases hi : i < students.length <;> simp [tableScan, hi]
  have hfilter (rows : List Student) :
      (rows.map some).filterMap (fun row => (row.bind filter).map project) =
        (rows.filter isAdult).map project := by
    induction rows with
    | nil => rfl
    | cons row rows ih => by_cases h : row.age > 18 <;> simp_all [filter, isAdult]
  rw [← hfilter, ← hscan, filterMap_map]
  rfl

end Loop

/-! ## What each operator still has to hand out -/

section Pending

variable (table : List Student) (limit_value : Int)

def scanPending (c : Cursor) : List Student := table.drop c.current_index

def filterPending (c : Cursor) : List Student := (scanPending table c).filter isAdult

/-- The rows that the limit still lets through. -/
def limitPending (s : Operators) : List Student :=
  (filterPending table s.cursor).take (limit_value - s.limit_count).toNat

theorem tableScanNext_streams : Streams (tableScanNext table) (scanPending table) where
  stop {c c'} h := by
    unfold tableScanNext at h
    split at h <;> simp_all [scanPending]
  step {c c' row} h := by
    rcases tableScanNext_some h with ⟨hrow, rfl⟩
    rcases List.getElem?_eq_some_iff.1 hrow with ⟨hlt, rfl⟩
    exact List.drop_eq_getElem_cons hlt

variable {table}

theorem filterPending_of_row {c c' : Cursor} {row : Student}
    (h : tableScanNext table c = (c', some row)) :
    filterPending table c = if row.age > 18 then row ::
      filterPending table c' else filterPending table c' := by
  simp [filterPending, (tableScanNext_streams table).step h, filter_cons, isAdult]

variable (table)

theorem filterNext_streams : Streams (filterNext table) (filterPending table) where
  stop {c c'} h := by
    fun_induction filterNext table c with
    | case1 c d hd =>
      cases h
      rcases (tableScanNext_streams table).stop hd with ⟨hc, hc'⟩
      exact ⟨by simp [filterPending, hc], congrArg (filter isAdult) hc'⟩
    | case2 => cases h
    | case3 c d row hd hage ih =>
      rw [filterPending_of_row hd, if_neg hage]
      exact ih h
  step {c c' row'} h := by
    fun_induction filterNext table c with
    | case1 => cases h
    | case2 c d row hd hage =>
      cases h
      rw [filterPending_of_row hd, if_pos hage]
      rfl
    | case3 c d row hd hage ih =>
      rw [filterPending_of_row hd, if_neg hage]
      exact ih h

theorem limitNext_streams :
    Streams (limitNext table limit_value) (limitPending table limit_value) where
  stop {s s'} h := by
    unfold limitNext at h
    split at h
    · cases h
      have hzero : (limit_value - s.limit_count).toNat = 0 := by omega
      simp [limitPending, hzero]
    · split at h
      · cases h
        rename_i hfilter
        rcases (filterNext_streams table).stop hfilter with ⟨hc, hc'⟩
        simp [limitPending, hc, hc']
      · cases h
  step {s s' row} h := by
    unfold limitNext at h
    split at h
    · cases h
    · split at h
      · cases h
      · cases h
        rename_i hlimit _ hfilter
        have hcount : (limit_value - s.limit_count).toNat =
          (limit_value - (s.limit_count + 1)).toNat + 1 := by omega
        simp [limitPending, (filterNext_streams table).step hfilter, hcount]

theorem length_filterPending_lt (c : Cursor) :
    (filterPending table c).length < table.length + 1 := by
  have hfilter := length_filter_le isAdult (table.drop c.current_index)
  rw [length_drop] at hfilter
  exact Nat.lt_succ_of_le (Nat.le_trans hfilter (Nat.sub_le _ _))

end Pending

/-- From any state, opening the projection of `modular_operator_chaining.c` and running it prints
the first `limit_value` rows with `age > 18` and leaves the limit exhausted; without the limit, the
iterators print what the loop of `query_execution_engine.c` prints. -/
theorem pipeline_computes_query (table : List Student) (limit_value : Int) (s : Operators)
    (c : Cursor) :
    (∃ s', projectionNext table limit_value (projectionOpen s) = some (s',
          ((table.filter fun row => row.age > 18).take (max limit_value 0).toNat).map project) ∧
      ∀ n, (limitNext table limit_value ((fun s => (limitNext table limit_value s).1)^[n] s')).2 =
        none) ∧
    ∃ c', Unlimited.projectionNext table (Unlimited.projectionOpen c) =
      some (c', Loop.main table) := by
  constructor
  · have hpending : limitPending table limit_value (projectionOpen s) =
        (table.filter fun row => row.age > 18).take (max limit_value 0).toNat := by
      have hlimit : (limit_value - 0).toNat = (max limit_value 0).toNat := by omega
      exact congrArg (fun n => (table.filter isAdult).take n) hlimit
    have hfuel : (limitPending table limit_value (projectionOpen s)).length < table.length + 1 :=
      Nat.lt_of_le_of_lt (length_take_le' _ _) (length_filterPending_lt table _)
    rcases (limitNext_streams table limit_value).drain_eq hfuel with ⟨s', hdrain, hs'⟩
    exact ⟨s', by simp [projectionNext, hdrain, hpending],
      (limitNext_streams table limit_value).exhausted hs'⟩
  · rcases (filterNext_streams table).drain_eq
      (length_filterPending_lt table (Unlimited.projectionOpen c)) with
      ⟨c', hdrain, -⟩
    simp [Unlimited.projectionNext, hdrain, Loop.main_eq]
    rfl

end SystemsLab.QueryEngine
