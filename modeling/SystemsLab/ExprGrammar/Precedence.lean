import SystemsLab.CLib.Decimal
import SystemsLab.Data.Nesting

/-!
# The expression parser of `lex_analyzer.l` and `lex_analyzer.y`

- `lex` — the rules of the lexer, each taking the longest match;
- `Derives` — the productions of `expr`, `term` and `factor` with their semantic actions: the token
  list is derived from the nonterminal and the actions build the tree.  The two productions of each
  level differ in the operator only and are one constructor;
- `ByPrecedence ts t` — how `t` is read off the tokens: its root is the last `+` or `-` outside all
  parentheses, or the last `*` or `/` if there is none.  Every derivation gives such a tree, and
  there is only one.

The lexer turns the text of a printed tree into `tokensOf`, because a number is never followed by a
digit there, and these tokens are a factor that stands for the tree.

`evaluate` of `lex_analyzer.y` tests the divisor for 0 before it divides, but not for the quotient
of `INT_MIN` and -1.
-/

namespace SystemsLab.ExprGrammar

open Decimal

/-! ## Trees -/

inductive Op where
  | add
  | sub
  | mul
  | div
  deriving DecidableEq, Repr

def Op.char : Op → UInt8
  | .add => 43
  | .sub => 45
  | .mul => 42
  | .div => 47

/-- The operators of `expr`; the others are those of `term`. -/
def Op.isSum : Op → Bool
  | .add => true
  | .sub => true
  | .mul => false
  | .div => false

/-- The values that `makeLeaf` and `makeNode` build. -/
inductive Node where
  | leaf (value : Int32)
  | node (op : Op) (left right : Node)
  deriving DecidableEq

def makeNode (op : Op) (left right : Node) : Node := .node op left right

def makeLeaf (value : Int32) : Node := .leaf value

def printTree : Node → List UInt8
  | .leaf value => printInt value
  | .node op left right => [40] ++ printTree left ++ [32, op.char, 32] ++ printTree right ++ [41]

/-! ## Tokens -/

/-- What `yylex` returns: `NUMBER` with its value, or a character. -/
inductive Token where
  | number (value : Int32)
  | char (c : UInt8)
  deriving DecidableEq

def Op.token (op : Op) : Token := .char op.char

def lparen : Token := .char 40

def rparen : Token := .char 41

def isBlank (c : UInt8) : Bool := c = 32 || c = 9

/-- The tokens of a text.  Blanks are skipped; every other character that is no digit is a token of
its own. -/
def lex : List UInt8 → List Token
  | [] => []
  | c :: input =>
    if isDigit c then
      .number (atoi ((c :: input).takeWhile isDigit)) :: lex (input.dropWhile isDigit)
    else if isBlank c then lex (input.dropWhile isBlank)
    else .char c :: lex input
  termination_by input => input.length
  decreasing_by
    all_goals
      have hle := fun q : UInt8 → Bool => (List.dropWhile_sublist (l := input) q).length_le
      simp only [List.length_cons]
      grind

/-! ## The grammar -/

inductive Nonterminal where
  | expr
  | term
  | factor
  deriving DecidableEq

inductive Derives : Nonterminal → List Token → Node → Prop where
  /-- `expr '+' term` and `expr '-' term` -/
  | sum {op : Op} {u v : List Token} {left right : Node} (hop : op.isSum) :
      Derives .expr u left → Derives .term v right →
        Derives .expr (u ++ op.token :: v) (makeNode op left right)
  | term {u : List Token} {t : Node} : Derives .term u t → Derives .expr u t
  /-- `term '*' factor` and `term '/' factor` -/
  | product {op : Op} {u v : List Token} {left right : Node} (hop : op.isSum = false) :
      Derives .term u left → Derives .factor v right →
        Derives .term (u ++ op.token :: v) (makeNode op left right)
  | factor {u : List Token} {t : Node} : Derives .factor u t → Derives .term u t
  | number (value : Int32) : Derives .factor [.number value] (makeLeaf value)
  | paren {u : List Token} {t : Node} :
      Derives .expr u t → Derives .factor (lparen :: u ++ [rparen]) t

open Nesting List

/-- An opening parenthesis counts one, a closing one minus one. -/
def weight (c : Token) : Int := if c = lparen then 1 else if c = rparen then -1 else 0

def IsOp (c : Token) : Prop := ∃ op : Op, c = op.token

/-- `'+'` or `'-'` if `sums` holds, `'*'` or `'/'` otherwise. -/
def IsOpOf (sums : Bool) (c : Token) : Prop := ∃ op : Op, op.isSum = sums ∧ c = op.token

inductive ByPrecedence : List Token → Node → Prop where
  | sum {op : Op} {ts u v : List Token} {left right : Node} (hop : op.isSum) :
      LastTop weight (IsOpOf true) ts u op.token v → ByPrecedence u left → ByPrecedence v right →
        ByPrecedence ts (.node op left right)
  | product {op : Op} {ts u v : List Token} {left right : Node} (hop : op.isSum = false) :
      NoTop weight (IsOpOf true) ts → LastTop weight (IsOpOf false) ts u op.token v →
        ByPrecedence u left → ByPrecedence v right → ByPrecedence ts (.node op left right)
  | number (value : Int32) : ByPrecedence [.number value] (.leaf value)
  | paren {u : List Token} {t : Node} : NoTop weight IsOp (lparen :: u ++ [rparen]) →
      ByPrecedence u t → ByPrecedence (lparen :: u ++ [rparen]) t

variable {op : Op} {nt : Nonterminal} {ts : List Token} {t t' : Node} {c : Token} {sums : Bool}

theorem weight_token (op : Op) : weight op.token = 0 := by cases op <;> rfl

theorem isOp_of_isOpOf (h : IsOpOf sums c) : IsOp c := by
  rcases h with ⟨op, -, rfl⟩
  exact ⟨op, rfl⟩

theorem token_inj {op' : Op} (h : op.token = op'.token) : op = op' := by
  cases op <;> cases op' <;> simp_all [Op.token, Op.char]

theorem not_isOp_number (value : Int32) : ¬IsOp (.number value) := by simp [IsOp, Op.token]

theorem not_isOp_paren : ¬IsOp lparen ∧ ¬IsOp rparen := by
  constructor
  all_goals
    rintro ⟨op, hop⟩
    cases op <;> simp [lparen, rparen, Op.token, Op.char] at hop

/-! ## The tokens of a nonterminal -/

/-- The operators that are not outside all parentheses in what is derived from the nonterminal. -/
def Absent : Nonterminal → Token → Prop
  | .expr => fun _ => False
  | .term => IsOpOf true
  | .factor => IsOp

structure Closed (nt : Nonterminal) (ts : List Token) : Prop where
  height : height weight ts = 0
  guarded : Guarded weight ts
  noTop : NoTop weight (Absent nt) ts

theorem Derives.closed (h : Derives nt ts t) : Closed nt ts := by
  induction h with
  | sum hop _ _ hu hv =>
    refine ⟨?_, hu.guarded.append_cons hv.guarded hu.height (weight_token _),
      fun _ _ _ _ => False.elim⟩
    simp [hu.height, hv.height, weight_token]
  | term _ hu => exact ⟨hu.height, hu.guarded, hu.noTop.mono fun _ => False.elim⟩
  | @product op u v _ _ hop _ _ hu hv =>
    have hsum : ¬IsOpOf true op.token := by
      rintro ⟨op', hop', htoken⟩
      rw [token_inj htoken, hop'] at hop
      cases hop
    refine ⟨?_, hu.guarded.append_cons hv.guarded hu.height (weight_token _),
      hu.noTop.append_cons (hv.noTop.mono fun _ => isOp_of_isOpOf) hu.height hsum (weight_token _)⟩
    simp [hu.height, hv.height, weight_token]
  | factor _ hu => exact ⟨hu.height, hu.guarded, hu.noTop.mono fun _ => isOp_of_isOpOf⟩
  | number value => exact ⟨rfl, .singleton (le_refl 0), .singleton (not_isOp_number value)⟩
  | paren _ hu =>
    refine ⟨?_, hu.guarded.enclosed hu.height rfl rfl,
      .enclosed hu.guarded not_isOp_paren.1 not_isOp_paren.2 rfl⟩
    simp [hu.height, weight, lparen, rparen]

/-! ## The tree -/

theorem Derives.byPrecedence (h : Derives nt ts t) : ByPrecedence ts t := by
  induction h with
  | sum hop hu hv ihu ihv =>
    exact .sum hop ⟨rfl, ⟨_, hop, rfl⟩, hu.closed.height, hv.closed.noTop⟩ ihu ihv
  | product hop hu hv ihu ihv =>
    exact .product hop (Derives.product hop hu hv).closed.noTop
      ⟨rfl, ⟨_, hop, rfl⟩, hu.closed.height, hv.closed.noTop.mono fun _ => isOp_of_isOpOf⟩ ihu ihv
  | number value => exact .number value
  | paren hu ihu => exact .paren (Derives.paren hu).closed.noTop ihu
  | term _ ihu | factor _ ihu => exact ihu

theorem noTop_number (value : Int32) : NoTop weight IsOp [.number value] :=
  .singleton (not_isOp_number value)

/-- The last operator on top splits the tokens in one way. -/
theorem LastTop.split {u v u' v' : List Token} {op' : Op}
    (h : LastTop weight (IsOpOf sums) ts u op.token v)
    (h' : LastTop weight (IsOpOf sums) ts u' op'.token v') :
    u = u' ∧ op = op' ∧ v = v' := by
  have hweight : ∀ c, IsOpOf sums c → weight c = 0 := by
    rintro c ⟨op, -, rfl⟩
    exact weight_token op
  rcases h.unique h' hweight with ⟨hu, hop, hv⟩
  exact ⟨hu, token_inj hop, hv⟩

theorem ByPrecedence.unique (h : ByPrecedence ts t) (h' : ByPrecedence ts t') : t = t' := by
  induction h generalizing t' with
  | sum hop hcut _ _ ihl ihr =>
    cases h' with
    | sum hop' hcut' hl hr =>
      obtain ⟨rfl, rfl, rfl⟩ := LastTop.split hcut hcut'
      rw [ihl hl, ihr hr]
    | product _ hno => exact absurd hno (hcut.not_noTop id)
    | number value => exact absurd (noTop_number value) (hcut.not_noTop isOp_of_isOpOf)
    | paren hno => exact absurd hno (hcut.not_noTop isOp_of_isOpOf)
  | product hop hno hcut _ _ ihl ihr =>
    cases h' with
    | sum _ hcut' => exact absurd hno (hcut'.not_noTop id)
    | product hop' _ hcut' hl hr =>
      obtain ⟨rfl, rfl, rfl⟩ := LastTop.split hcut hcut'
      rw [ihl hl, ihr hr]
    | number value => exact absurd (noTop_number value) (hcut.not_noTop isOp_of_isOpOf)
    | paren hno' => exact absurd hno' (hcut.not_noTop isOp_of_isOpOf)
  | number value =>
    cases h' with
    | sum _ hcut => exact absurd (noTop_number value) (hcut.not_noTop isOp_of_isOpOf)
    | product _ _ hcut => exact absurd (noTop_number value) (hcut.not_noTop isOp_of_isOpOf)
    | number => rfl
  | paren hno _ ih =>
    generalize hts : lparen :: _ ++ [rparen] = ts at h' hno
    cases h' with
    | sum _ hcut => exact absurd hno (hcut.not_noTop isOp_of_isOpOf)
    | product _ _ hcut => exact absurd hno (hcut.not_noTop isOp_of_isOpOf)
    | number value => cases hts
    | paren _ hu =>
      obtain rfl : _ = _ := by simpa using hts
      exact ih hu

theorem Derives.unique (h : Derives nt ts t) (h' : Derives nt ts t') : t = t' :=
  h.byPrecedence.unique h'.byPrecedence

/-- The grammar gives a token list at most one tree, which is the one of the usual precedence. -/
theorem grammar_unambiguous (ts : List Token) :
    (∀ t t', Derives .expr ts t → Derives .expr ts t' → t = t') ∧ ∀ t, Derives .expr ts t →
    ByPrecedence ts t :=
  ⟨fun _ _ h h' => h.unique h', fun _ h => h.byPrecedence⟩

def demoTokens : List Token :=
  [.number 1, Op.sub.token, .number 2, Op.mul.token, .number 3, Op.sub.token, .number 4]

def demoTree : Node := .node .sub (.node .sub (.leaf 1) (.node .mul (.leaf 2) (.leaf 3))) (.leaf 4)

theorem derives_demoTree : Derives .expr demoTokens demoTree := by
  have hnumber : ∀ v, Derives .term [.number v] (.leaf v) := fun v => .factor (.number v)
  have hproduct := Derives.product (rfl : Op.mul.isSum = false) (hnumber 2) (.number 3)
  exact .sum rfl (.sum rfl (.term (hnumber 1)) hproduct) (hnumber 4)

theorem grammar_unambiguous_demo :
    (∀ t, Derives .expr demoTokens t → t = demoTree) ∧ ByPrecedence demoTokens demoTree :=
  ⟨fun t h => (grammar_unambiguous demoTokens).1 t demoTree h derives_demoTree,
    (grammar_unambiguous demoTokens).2 demoTree derives_demoTree⟩

/-! ## Reading a printed tree -/

variable {t : Node} {c : UInt8} {input rest : List UInt8}

/-- The leaves are in `0..INT_MAX`. -/
def Node.NonNeg : Node → Prop
  | .leaf value => 0 ≤ value.toInt
  | .node _ left right => left.NonNeg ∧ right.NonNeg

def tokensOf : Node → List Token
  | .leaf value => [.number value]
  | .node op left right => lparen :: (tokensOf left ++ op.token :: tokensOf right) ++ [rparen]

/-! ## The lexer -/

theorem lex_char (hdigit : isDigit c = false) (hblank : isBlank c = false) :
    lex (c :: input) = .char c :: lex input := by
  rw [lex]
  simp [hdigit, hblank]

theorem lex_blank (input : List UInt8) : lex (32 :: input) = lex input := by
  have hskip : lex (32 :: input) = lex (input.dropWhile isBlank) := by
    rw [lex]
    rfl
  rw [hskip]
  cases input with
  | nil => rfl
  | cons c input =>
    by_cases hblank : isBlank c
    · have hdigit : isDigit c = false := by
        simp only [isBlank, Bool.or_eq_true, decide_eq_true_eq] at hblank
        rcases hblank with rfl | rfl <;> rfl
      rw [lex]
      simp [hdigit, hblank]
    · rw [dropWhile_cons_of_neg hblank]

theorem lex_decimal (n : Nat) (hrest : rest.takeWhile isDigit = []) :
    lex (decimal n ++ rest) = .number (toInt32 n) :: lex rest := by
  rcases exists_cons_of_ne_nil (decimal_ne_nil n) with ⟨c, text, htext⟩
  have hdigits : ∀ d ∈ c :: text, isDigit d := fun d hd => isDigit_of_mem_decimal (htext ▸ hd)
  have hc : isDigit c := hdigits c mem_cons_self
  have hdrop : (text ++ rest).dropWhile isDigit = rest := by
    rw [dropWhile_append_of_pos fun d hd => hdigits d (mem_cons_of_mem _ hd)]
    simpa [hrest] using takeWhile_append_dropWhile (p := isDigit) (l := rest)
  have htake : (c :: (text ++ rest)).takeWhile isDigit = decimal n := by
    rw [← cons_append, takeWhile_append_of_pos hdigits, hrest, htext, append_nil]
  rw [htext, cons_append, lex, if_pos hc, htake, hdrop, atoi_decimal]

theorem lex_printTree (h : t.NonNeg) (rest : List UInt8) (hrest : rest.takeWhile isDigit = []) :
    lex (printTree t ++ rest) = tokensOf t ++ lex rest := by
  induction t generalizing rest with
  | leaf value =>
    have hpos : ¬value.toInt < 0 := not_lt.2 h
    have habs : (value.toInt.natAbs : Int) = value.toInt := Int.natAbs_of_nonneg h
    simp [printTree, printInt, hpos, lex_decimal _ hrest, habs, toInt32_toInt, tokensOf]
  | node op left right ihl ihr =>
    have hclose := ihr h.2 (41 :: rest) rfl
    have hop : lex (op.char :: 32 :: (printTree right ++ 41 :: rest)) =
        op.token :: (tokensOf right ++ rparen :: lex rest) := by
      rw [lex_char (by cases op <;> rfl) (by cases op <;> rfl), lex_blank, hclose, lex_char rfl rfl]
      rfl
    have hopen := ihl h.1 (32 :: op.char :: 32 :: (printTree right ++ 41 :: rest)) rfl
    rw [lex_blank, hop] at hopen
    simp [printTree, lex_char, isDigit, isBlank, hopen, tokensOf, lparen]

/-! ## The parser -/

theorem derives_tokensOf (t : Node) : Derives .factor (tokensOf t) t := by
  induction t with
  | leaf value => exact .number value
  | node op left right ihl ihr =>
    cases hop : op.isSum with
    | true => exact .paren (.sum hop (.term (.factor ihl)) (.factor ihr))
    | false => exact .paren (.term (.product hop (.factor ihl) ihr))

theorem derives_printTree (h : t.NonNeg) : Derives .expr (lex (printTree t)) t := by
  have hlex : lex (printTree t) = tokensOf t := by simpa [lex] using lex_printTree h [] rfl
  exact hlex ▸ .term (.factor (derives_tokensOf t))

/-- What is printed for a tree is read as this tree. -/
theorem parser_inverts_printer (t : Node) (h : t.NonNeg) (t' : Node) :
    Derives .expr (lex (printTree t)) t' ↔ t' = t := by
  constructor
  · exact fun h' => h'.unique (derives_printTree h)
  · rintro rfl
    exact derives_printTree h

theorem parser_inverts_printer_demo : Derives .expr (lex (printTree demoTree)) demoTree :=
  (parser_inverts_printer demoTree (by simp only [demoTree, Node.NonNeg]; decide) demoTree).2 rfl

/-! ## The value of a parsed tree -/

/-- The cases of `evaluate`; that of `'/'` is `rightVal ? leftVal / rightVal : 0`. -/
def Op.apply (leftVal rightVal : Int32) : Op → Option Int32
  | .add => some (leftVal + rightVal)
  | .sub => some (leftVal - rightVal)
  | .mul => some (leftVal * rightVal)
  | .div => divide leftVal rightVal

def evaluate : Node → Option Int32
  | .leaf value => some value
  | .node op left right => do
    let leftVal ← evaluate left
    let rightVal ← evaluate right
    op.apply leftVal rightVal

/-! ## In integers -/

/-- The value of a tree; a quotient is not wrapped. -/
def value : Node → Int
  | .leaf v => v.toInt
  | .node .add left right => wrap (value left + value right)
  | .node .sub left right => wrap (value left - value right)
  | .node .mul left right => wrap (value left * value right)
  | .node .div left right => if value right = 0 then 0 else (value left).tdiv (value right)

def nodes : Node → List Node
  | .leaf v => [.leaf v]
  | .node op left right => .node op left right :: nodes left ++ nodes right

/-- The division of two trees whose quotient is not an `int`. -/
def Traps (left right : Node) : Prop := value left = -2 ^ 31 ∧ value right = -1

variable {t left right : Node} {l r v : Int32} {op : Op}

/-- One operation of the evaluation, read in integers. -/
theorem toInt_apply (hl : l.toInt = value left) (hr : r.toInt = value right)
    (hv : op.apply l r = some v) :
    v.toInt = value (.node op left right) := by
  cases op with
  | add =>
    cases hv
    rw [value, ← hl, ← hr, Int32.toInt_add]
    rfl
  | sub =>
    cases hv
    rw [value, ← hl, ← hr, Int32.toInt_sub]
    rfl
  | mul =>
    cases hv
    rw [value, ← hl, ← hr, Int32.toInt_mul]
    rfl
  | div => rw [value, ← hl, ← hr, toInt_divide hv]

theorem toInt_evaluate (hv : evaluate t = some v) : v.toInt = value t := by
  induction t generalizing v with
  | leaf w =>
    cases hv
    rfl
  | node op left right ihl ihr =>
    rcases Option.bind_eq_some_iff.1 hv with ⟨l, hl, hv⟩
    rcases Option.bind_eq_some_iff.1 hv with ⟨r, hr, hv⟩
    exact toInt_apply (ihl hl) (ihr hr) hv

theorem apply_eq_none_iff (hl : l.toInt = value left) (hr : r.toInt = value right) :
    op.apply l r = none ↔ op = .div ∧ Traps left right := by
  cases op with
  | div => rw [Op.apply, divide_eq_none_iff, hl, hr, and_iff_right rfl, Traps]
  | _ => simp [Op.apply]

/-- A tree with a trap somewhere has no value, and only such a tree. -/
theorem evaluate_eq_none_iff :
    evaluate t = none ↔ ∃ left right, .node .div left right ∈ nodes t ∧ Traps left right := by
  induction t with
  | leaf v => simp [evaluate, nodes]
  | node op left right ihl ihr =>
    -- either an operand has the trap, or both have a value and the trap is at the root
    have hhere : evaluate (.node op left right) = none ↔
        evaluate left = none ∨ evaluate right = none ∨ op = .div ∧ Traps left right := by
      rw [evaluate]
      cases hl : evaluate left with
      | none => simp
      | some l =>
        cases hr : evaluate right with
        | none => simp
        | some r => simp [apply_eq_none_iff (toInt_evaluate hl) (toInt_evaluate hr)]
    rw [hhere, ihl, ihr, nodes]
    simp only [List.cons_append, List.mem_cons, List.mem_append, Node.node.injEq]
    constructor
    · rintro (⟨l, r, hmem, htraps⟩ | ⟨l, r, hmem, htraps⟩ | ⟨rfl, htraps⟩)
      · exact ⟨l, r, .inr (.inl hmem), htraps⟩
      · exact ⟨l, r, .inr (.inr hmem), htraps⟩
      · exact ⟨left, right, .inl ⟨rfl, rfl, rfl⟩, htraps⟩
    · rintro ⟨l, r, ⟨rfl, rfl, rfl⟩ | hmem | hmem, htraps⟩
      · exact .inr (.inr ⟨rfl, htraps⟩)
      · exact .inl ⟨l, r, hmem, htraps⟩
      · exact .inr (.inl ⟨l, r, hmem, htraps⟩)

/-- Evaluation traps exactly if the tree has a division with the values `INT_MIN` and -1; else it
returns the value of the tree, where every quotient is that of the integers. -/
theorem evaluate_traps_iff (t : Node) :
    (evaluate t = none ↔ ∃ left right, .node .div left right ∈ nodes t ∧
      value left = -2 ^ 31 ∧ value right = -1) ∧ ∀ v, evaluate t = some v → v.toInt = value t :=
  ⟨evaluate_eq_none_iff, fun _ hv => toInt_evaluate hv⟩

theorem evaluate_traps_iff_demo : ∃ v, evaluate demoTree = some v ∧ v.toInt = value demoTree :=
  ⟨-9, rfl, (evaluate_traps_iff demoTree).2 (-9) rfl⟩

/-- `(((0 - 2147483647) - 1) / (0 - 1))` -/
def minByMinusOne : Node :=
  .node .div (.node .sub (.node .sub (.leaf 0) (.leaf 2147483647)) (.leaf 1))
    (.node .sub (.leaf 0) (.leaf 1))

/-- The parser builds this tree, and its quotient is no `int`. -/
theorem parsed_division_traps : Derives .expr (lex (printTree minByMinusOne)) minByMinusOne ∧
    minByMinusOne.NonNeg ∧ evaluate minByMinusOne = none := by
  have hleaves : minByMinusOne.NonNeg := by
    simp only [minByMinusOne, Node.NonNeg]
    decide
  exact ⟨derives_printTree hleaves, hleaves, by decide⟩

end SystemsLab.ExprGrammar
