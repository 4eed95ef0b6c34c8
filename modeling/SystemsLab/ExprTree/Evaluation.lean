import SystemsLab.CLib.Decimal

/-!
# The evaluators of `evaluation_ast.c` and `mini_sql_expre_evaluator.c`

Both have the same recursion and differ in what they do with the operator of a node.  The second one
returns the right operand for `"*"`: it has the value of the tree in which every product is replaced
by its right operand, though it evaluates the left operand too.
-/

namespace SystemsLab.ExprTree

open Decimal List

abbrev Text := List UInt8

inductive Node where
  | null
  | node (data : Text) (left right : Node)
  deriving DecidableEq

/-- The recursion of both evaluators; `none` is a trap. -/
def evaluate (apply : Text → Int32 → Int32 → Option Int32) : Node → Option Int32
  | .null => some 0
  | .node data .null .null => some (atoi data)
  | .node data left right => do
    let leftval ← evaluate apply left
    let rightval ← evaluate apply right
    apply data leftval rightval

namespace Ast

/-- The chain of `evaluation_ast.c`. -/
def apply (data : Text) (leftval rightval : Int32) : Option Int32 :=
  if data = [43] then some (leftval + rightval)
  else if data = [45] then some (leftval - rightval)
  else if data = [42] then some (leftval * rightval)
  else if data = [47] then divide leftval rightval
  else some 0

def evaluation : Node → Option Int32 := evaluate apply

end Ast

namespace Sql

def truth (b : Bool) : Option Int32 := some (if b then 1 else 0)

/-- The chain of `mini_sql_expre_evaluator.c`: the arithmetic operators, `>`, `<`, `=`, `>=`, `<=`,
`!=`, `AND` and `OR`. -/
def apply (data : Text) (leftval rightval : Int32) : Option Int32 :=
  if data = [43] then some (leftval + rightval)
  else if data = [45] then some (leftval - rightval)
  else if data = [42] then some rightval
  else if data = [47] then divide leftval rightval
  else if data = [62] then truth (leftval > rightval)
  else if data = [60] then truth (leftval < rightval)
  else if data = [61] then truth (leftval = rightval)
  else if data = [62, 61] then truth (leftval ≥ rightval)
  else if data = [60, 61] then truth (leftval ≤ rightval)
  else if data = [33, 61] then truth (leftval ≠ rightval)
  else if data = [65, 78, 68] then truth (leftval ≠ 0 ∧ rightval ≠ 0)
  else if data = [79, 82] then truth (leftval ≠ 0 ∨ rightval ≠ 0)
  else some 0

def evaluation : Node → Option Int32 := evaluate apply

end Sql

/-! ## Arithmetic trees -/

/-- Digits, with a sign in front or without. -/
def IsDecimal (text : Text) : Prop :=
  ∃ sign digits, text = sign ++ digits ∧ sign ∈ [[], [43], [45]] ∧ digits ≠ [] ∧
    ∀ c ∈ digits, isDigit c

def operators : List Text := [[43], [45], [42], [47]]

/-- The inner nodes are arithmetic operators with two children and the leaves are numbers. -/
inductive IsArithmetic : Node → Prop where
  | number {text : Text} : IsDecimal text → IsArithmetic (.node text .null .null)
  | op {data : Text} {left right : Node} : data ∈ operators → IsArithmetic left →
    IsArithmetic right → IsArithmetic (.node data left right)

def subtrees : Node → List Node
  | .null => []
  | .node data left right => .node data left right :: (subtrees left ++ subtrees right)

/-- The operators over the integers, with the product left open. -/
def operation (times : Int → Int → Int) (data : Text) (l r : Int) : Int :=
  if data = [43] then wrap (l + r)
  else if data = [45] then wrap (l - r)
  else if data = [42] then times l r
  else if r = 0 then 0 else l.tdiv r

/-- The value of an arithmetic tree when `times` is taken for the product. -/
def valueBy (times : Int → Int → Int) : Node → Int
  | .null => 0
  | .node data .null .null => (atoi data).toInt
  | .node data left right => operation times data (valueBy times left) (valueBy times right)

/-- The value of an arithmetic tree: sums, differences and products modulo 2³², quotients of the
integers. -/
def value : Node → Int := valueBy fun l r => wrap (l * r)

/-- Every product is replaced by its right operand. -/
def lastFactors : Node → Node
  | .null => .null
  | .node data left right =>
    if data = [42] then lastFactors right else .node data (lastFactors left) (lastFactors right)

/-- Both evaluators return the same number. -/
def Agree (t : Node) : Prop := ∃ v, Ast.evaluation t = some v ∧ Sql.evaluation t = some v

/-- The quotient of the two trees is an `int`. -/
def Divides (left right : Node) : Prop := ¬(value left = -2 ^ 31 ∧ value right = -1)

/-- The chain computes the operators with `times` for the product, and fails only where a quotient
is no `int`. -/
structure Follows (apply : Text → Int32 → Int32 → Option Int32) (times : Int → Int → Int) :
    Prop where
  toInt_apply : ∀ data ∈ operators, ∀ l r v : Int32, apply data l r = some v →
    v.toInt = operation times data l.toInt r.toInt
  apply_eq_none : ∀ data ∈ operators, ∀ l r : Int32,
    apply data l r = none ↔ data = [47] ∧ l.toInt = -2 ^ 31 ∧ r.toInt = -1

variable {data : Text} {left right s t : Node} {apply : Text → Int32 → Int32 → Option Int32}
  {times : Int → Int → Int} {v : Int32}

theorem IsDecimal.ne_operator {op : Text} (h : IsDecimal data) (hop : op ∈ operators) :
    op ≠ data := by
  rintro rfl
  rcases h with ⟨sign, digits, rfl, hsign, hne, hdigits⟩
  rcases exists_cons_of_ne_nil hne with ⟨c, rest, rfl⟩
  have hc : isDigit c := hdigits c mem_cons_self
  simp only [mem_cons, not_mem_nil, or_false] at hsign
  rcases hsign with rfl | rfl | rfl
  · have hcases : c = 43 ∨ c = 45 ∨ c = 42 ∨ c = 47 := by grind [operators]
    rcases hcases with rfl | rfl | rfl | rfl <;> exact absurd hc (by decide)
  · simp [operators] at hop
  · simp [operators] at hop

theorem IsArithmetic.operands (h : IsArithmetic (.node data left right))
    (hdata : data ∈ operators) :
    IsArithmetic left ∧ IsArithmetic right := by
  cases h with
  | number htext => exact absurd rfl (htext.ne_operator hdata)
  | op _ hleft hright => exact ⟨hleft, hright⟩

theorem evaluate_op (h : IsArithmetic left) : evaluate apply (.node data left right) =
    (evaluate apply left).bind fun l => (evaluate apply right).bind fun r => apply data l r := by
  cases h with
  | number | op => rfl

theorem valueBy_op (h : IsArithmetic left) : valueBy times (.node data left right) =
    operation times data (valueBy times left) (valueBy times right) := by
  cases h with
  | number | op => rfl

theorem mem_subtrees_self (h : IsArithmetic t) : t ∈ subtrees t := by
  cases h with
  | number | op => exact mem_cons_self

theorem IsArithmetic.of_mem (h : IsArithmetic t) (hs : s ∈ subtrees t) : IsArithmetic s := by
  induction h with
  | number htext =>
    obtain rfl : s = _ := by simpa [subtrees] using hs
    exact .number htext
  | op hdata hleft hright ihl ihr =>
    rcases mem_cons.1 hs with rfl | hs
    · exact .op hdata hleft hright
    · exact (mem_append.1 hs).elim ihl ihr

theorem subtrees_subset (hs : s ∈ subtrees t) : subtrees s ⊆ subtrees t := by
  induction t with
  | null => cases hs
  | node data left right ihl ihr =>
    rcases mem_cons.1 hs with rfl | hs
    · exact Subset.refl _
    · refine fun n hn => mem_cons_of_mem _ (mem_append.2 ?_)
      exact (mem_append.1 hs).imp (fun h => ihl h hn) fun h => ihr h hn

/-- A division of a tree with an operator at the root is the root or a division of an operand. -/
theorem division_mem_op {l r : Node} : .node [47] l r ∈ subtrees (.node data left right) ↔
    (data = [47] ∧ l = left ∧ r = right) ∨ .node [47] l r ∈ subtrees left ∨
    .node [47] l r ∈ subtrees right := by
  simp only [subtrees, mem_cons, mem_append, Node.node.injEq, eq_comm (b := data)]

/-! ## What the evaluators compute -/

theorem ast_follows : Follows Ast.apply fun l r => wrap (l * r) where
  toInt_apply := by
    intro data hdata l r v hv
    simp only [operators, mem_cons, not_mem_nil, or_false] at hdata
    rcases hdata with rfl | rfl | rfl | rfl
    · cases hv
      exact Int32.toInt_add l r
    · cases hv
      exact Int32.toInt_sub l r
    · cases hv
      exact Int32.toInt_mul l r
    · exact toInt_divide hv
  apply_eq_none := by
    intro data hdata l r
    simp only [operators, mem_cons, not_mem_nil, or_false] at hdata
    rcases hdata with rfl | rfl | rfl | rfl <;> simp [Ast.apply, divide_eq_none_iff]

theorem sql_follows : Follows Sql.apply fun _ r => r where
  toInt_apply := by
    intro data hdata l r v hv
    simp only [operators, mem_cons, not_mem_nil, or_false] at hdata
    rcases hdata with rfl | rfl | rfl | rfl
    · cases hv
      exact Int32.toInt_add l r
    · cases hv
      exact Int32.toInt_sub l r
    · cases hv
      rfl
    · exact toInt_divide hv
  apply_eq_none := by
    intro data hdata l r
    simp only [operators, mem_cons, not_mem_nil, or_false] at hdata
    rcases hdata with rfl | rfl | rfl | rfl <;> simp [Sql.apply, divide_eq_none_iff]

/-- A number that is returned is the value of the tree. -/
theorem Follows.toInt_evaluate (h : Follows apply times) (ht : IsArithmetic t)
    (hv : evaluate apply t = some v) :
    v.toInt = valueBy times t := by
  induction ht generalizing v with
  | number =>
    cases hv
    rfl
  | op hdata hleft _ ihl ihr =>
    rw [evaluate_op hleft] at hv
    rcases Option.bind_eq_some_iff.1 hv with ⟨l, hl, hv⟩
    rcases Option.bind_eq_some_iff.1 hv with ⟨r, hr, hv⟩
    rw [valueBy_op hleft, ← ihl hl, ← ihr hr]
    exact h.toInt_apply _ hdata l r v hv

/-- No number is returned exactly if a division of the tree has the values `INT_MIN` and -1. -/
theorem Follows.evaluate_eq_none_iff (h : Follows apply times) (ht : IsArithmetic t) :
    evaluate apply t = none ↔
    ∃ l r, .node [47] l r ∈ subtrees t ∧ valueBy times l = -2 ^ 31 ∧ valueBy times r = -1 := by
  induction ht with
  | number htext =>
    simp [evaluate, subtrees, htext.ne_operator (show [47] ∈ operators by simp [operators])]
  | @op data left right hdata hleft hright ihl ihr =>
    -- either an operand has the trap, or both have a value and the trap is at the root
    have hhere : evaluate apply (.node data left right) = none ↔
        evaluate apply left = none ∨ evaluate apply right = none ∨
          data = [47] ∧ valueBy times left = -2 ^ 31 ∧ valueBy times right = -1 := by
      rw [evaluate_op hleft]
      cases hl : evaluate apply left with
      | none => simp
      | some l =>
        cases hr : evaluate apply right with
        | none => simp
        | some r => simp [h.apply_eq_none data hdata, h.toInt_evaluate hleft hl,
          h.toInt_evaluate hright hr]
    rw [hhere, ihl, ihr]
    simp only [division_mem_op]
    constructor
    · rintro (⟨l, r, hmem, htraps⟩ | ⟨l, r, hmem, htraps⟩ | ⟨hdata, htraps⟩)
      · exact ⟨l, r, .inr (.inl hmem), htraps⟩
      · exact ⟨l, r, .inr (.inr hmem), htraps⟩
      · exact ⟨left, right, .inl ⟨hdata, rfl, rfl⟩, htraps⟩
    · rintro ⟨l, r, ⟨hdata, rfl, rfl⟩ | hmem | hmem, htraps⟩
      · exact .inr (.inr ⟨hdata, htraps⟩)
      · exact .inl ⟨l, r, hmem, htraps⟩
      · exact .inr (.inl ⟨l, r, hmem, htraps⟩)

theorem IsArithmetic.lastFactors (h : IsArithmetic t) : IsArithmetic (lastFactors t) := by
  induction h with
  | number htext =>
    rw [ExprTree.lastFactors, if_neg (htext.ne_operator (by simp [operators])).symm]
    exact .number htext
  | op hdata _ _ ihl ihr =>
    rw [ExprTree.lastFactors]
    split
    · exact ihr
    · exact .op hdata ihl ihr

/-- What the second evaluator computes is the value of the tree without the left operands of its
products. -/
theorem value_lastFactors (h : IsArithmetic t) :
    value (lastFactors t) = valueBy (fun _ r => r) t := by
  induction h with
  | number htext =>
    rw [lastFactors, if_neg (htext.ne_operator (by simp [operators])).symm]
    rfl
  | @op data left right hdata hleft _ ihl ihr =>
    rw [valueBy_op hleft, ← ihl, ← ihr, lastFactors]
    split
    · next hstar =>
      subst hstar
      rfl
    · next hstar =>
      rw [value, valueBy_op hleft.lastFactors]
      simp [operation, hstar]

/-- Agreement on the tree alone. -/
theorem agree_iff (h : IsArithmetic t) :
    Agree t ↔ (∀ left right, .node [47] left right ∈ subtrees t →
    Divides left right ∧ Divides (lastFactors left) (lastFactors right)) ∧
      value (lastFactors t) = value t := by
  -- an operand of a division is arithmetic, so its reading by the second evaluator is that of
  -- `lastFactors`
  have hdivides : (∀ left right, .node [47] left right ∈ subtrees t →
      Divides left right ∧ Divides (lastFactors left) (lastFactors right)) ↔
        Ast.evaluation t ≠ none ∧ Sql.evaluation t ≠ none := by
    rw [Ast.evaluation, Sql.evaluation, Ne, Ne, ast_follows.evaluate_eq_none_iff h,
      sql_follows.evaluate_eq_none_iff h]
    push Not
    rw [← forall_and]
    refine forall_congr' fun l => ?_
    rw [← forall_and]
    refine forall_congr' fun r => ?_
    rw [← imp_and]
    refine imp_congr_right fun hmem => ?_
    have hoperands := (h.of_mem hmem).operands (by simp [operators])
    rw [Divides, Divides, value_lastFactors hoperands.1, value_lastFactors hoperands.2,
      not_and, not_and]
    rfl
  rw [hdivides, value_lastFactors h]
  constructor
  · rintro ⟨v, hast, hsql⟩
    refine ⟨by simp [hast, hsql], ?_⟩
    exact (sql_follows.toInt_evaluate h hsql).symm.trans (ast_follows.toInt_evaluate h hast)
  · rintro ⟨⟨hast, hsql⟩, hvalue⟩
    rcases Option.ne_none_iff_exists'.1 hast with ⟨v, hv⟩
    rcases Option.ne_none_iff_exists'.1 hsql with ⟨w, hw⟩
    have heq : w.toInt = v.toInt :=
      (sql_follows.toInt_evaluate h hw).trans (hvalue.trans (ast_follows.toInt_evaluate h hv).symm)
    exact ⟨v, hv, hw.trans (congrArg some (Int32.toInt_inj.1 heq))⟩

theorem value_product (h : IsArithmetic left) :
    value (.node [42] left right) = wrap (value left * value right) := valueBy_op h

/-- If no product differs from its right operand, the replacement changes no value. -/
theorem value_lastFactors_of_products (h : IsArithmetic t) (hproducts : ∀ left right,
    .node [42] left right ∈ subtrees t → wrap (value left * value right) = value right) :
    value (lastFactors t) = value t := by
  induction h with
  | number htext => rw [lastFactors, if_neg (htext.ne_operator (by simp [operators])).symm]; rfl
  | @op data left right hdata hleft _ ihl ihr =>
    have hl := ihl fun l r hmem => hproducts l r (mem_cons_of_mem _ (mem_append_left _ hmem))
    have hr := ihr fun l r hmem => hproducts l r (mem_cons_of_mem _ (mem_append_right _ hmem))
    rw [lastFactors]
    split
    · next hstar =>
      subst hstar
      rw [hr, value_product hleft, hproducts left right mem_cons_self]
    · rw [value, valueBy_op hleft.lastFactors, valueBy_op hleft]
      exact congrArg₂ _ hl hr

/-- The evaluators agree on an arithmetic tree exactly if its value stays the same when every
product is replaced by its right operand, and no quotient fails before or after that.  They agree on
all its parts exactly if no quotient fails and no product has a value different from that of its
right operand. -/
theorem evaluators_agree_iff (t : Node) (h : IsArithmetic t) :
    (Agree t ↔ (∀ left right, .node [47] left right ∈ subtrees t →
        Divides left right ∧ Divides (lastFactors left) (lastFactors right)) ∧
          value (lastFactors t) = value t) ∧
    ((∀ s ∈ subtrees t, Agree s) ↔
      (∀ left right, .node [47] left right ∈ subtrees t → Divides left right) ∧
        ∀ left right, .node [42] left right ∈ subtrees t →
          wrap (value left * value right) = value right) := by
  refine ⟨agree_iff h, ⟨fun hagree => ⟨fun l r hmem => ?_, fun l r hmem => ?_⟩, ?_⟩⟩
  · have harith := h.of_mem hmem
    exact (((agree_iff harith).1 (hagree _ hmem)).1 l r (mem_subtrees_self harith)).1
  · -- the product and its right operand have the same value after the replacement
    have harith := h.of_mem hmem
    rcases harith.operands (by simp [operators]) with ⟨hl, hr⟩
    have hmem' : r ∈ subtrees t :=
      subtrees_subset hmem (mem_cons_of_mem _ (mem_append_right _ (mem_subtrees_self hr)))
    have hproduct := ((agree_iff harith).1 (hagree _ hmem)).2
    rw [← value_product hl, ← hproduct, ← ((agree_iff hr).1 (hagree _ hmem')).2]
    rfl
  · rintro ⟨hdivides, hproducts⟩ s hs
    have hvalue : ∀ s ∈ subtrees t, value (lastFactors s) = value s := fun s hs =>
      value_lastFactors_of_products (h.of_mem hs) fun l r hmem =>
        hproducts l r (subtrees_subset hs hmem)
    refine (agree_iff (h.of_mem hs)).2 ⟨fun l r hmem => ?_, hvalue s hs⟩
    have hmem' := subtrees_subset hs hmem
    rcases (h.of_mem hmem').operands (by simp [operators]) with ⟨hl, hr⟩
    have hl' : l ∈ subtrees t :=
      subtrees_subset hmem' (mem_cons_of_mem _ (mem_append_left _ (mem_subtrees_self hl)))
    have hr' : r ∈ subtrees t :=
      subtrees_subset hmem' (mem_cons_of_mem _ (mem_append_right _ (mem_subtrees_self hr)))
    rw [Divides, Divides, hvalue l hl', hvalue r hr', and_self_iff]
    exact hdivides l r hmem'

def leaf (text : Text) : Node := .node text .null .null

theorem isArithmetic_leaf (c : UInt8) (h : isDigit c) : IsArithmetic (leaf [c]) :=
  .number ⟨[], [c], rfl, by simp, by simp, by simpa using h⟩

def demoTree : Node :=
  .node [45] (.node [42] (leaf [49]) (leaf [55])) (.node [47] (leaf [56]) (leaf [48]))

theorem evaluators_agree_demo : Agree demoTree := by
  have harith : IsArithmetic demoTree :=
    .op (by decide) (.op (by decide) (isArithmetic_leaf 49 rfl) (isArithmetic_leaf 55 rfl))
      (.op (by decide) (isArithmetic_leaf 56 rfl) (isArithmetic_leaf 48 rfl))
  refine (evaluators_agree_iff demoTree harith).1.2 ⟨fun left right hmem => ?_, by decide +kernel⟩
  obtain ⟨rfl, rfl⟩ : left = leaf [56] ∧ right = leaf [48] := by
    simpa [demoTree, subtrees, leaf] using hmem
  unfold Divides
  decide +kernel

/-- `2 * 3` is `6` and `3`. -/
theorem product_is_right_operand : IsArithmetic (.node [42] (leaf [50]) (leaf [51])) ∧
      Ast.evaluation (.node [42] (leaf [50]) (leaf [51])) = some 6 ∧
      Sql.evaluation (.node [42] (leaf [50]) (leaf [51])) = some 3 :=
  ⟨.op (by decide) (isArithmetic_leaf 50 rfl) (isArithmetic_leaf 51 rfl), by decide +kernel,
    by decide +kernel⟩

end SystemsLab.ExprTree
