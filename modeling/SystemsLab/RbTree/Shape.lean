import SystemsLab.RbTree.Model

/-!
# Colours and black heights of abstract trees

The tree in memory is described by a `Shape`: a search tree whose nodes carry an address and a
colour.  The repairs walk up the tree with one rule broken at one place, so the rules are stated for
a tree and for a path around a place:

- `PathOk path n` — the path expects a tree of black height `n` at its place;
- `Fits path t n` — and `t` is one, with a root colour that fits;
- `Fits.plug` — then the whole tree obeys the rules.
-/

namespace SystemsLab.RbTree

open SearchTree

/-- What a node of the abstract tree carries besides its key. -/
structure Tag where
  addr : Ptr
  color : Color
  deriving DecidableEq, Repr

abbrev Shape := SearchTree Int Tag

abbrev Path := List (Frame Int Tag)

def rootColor : Shape → Color
  | null => .black
  | node _ _ tag _ => tag.color

/-- No red node has a red child. -/
def NoRedRed : Shape → Prop
  | null => True
  | node left _ tag right =>
    NoRedRed left ∧ NoRedRed right ∧
      (tag.color = .red → rootColor left = .black ∧ rootColor right = .black)

/-- Every path from the root to `NIL` has `n` black nodes. -/
def BlackHeight : Shape → Nat → Prop
  | null, n => n = 0
  | node left _ tag right, n =>
    match tag.color with
    | .red => BlackHeight left n ∧ BlackHeight right n
    | .black => ∃ m, n = m + 1 ∧ BlackHeight left m ∧ BlackHeight right m

structure RedBlack (t : Shape) (n : Nat) : Prop where
  noRedRed : NoRedRed t
  blackHeight : BlackHeight t n

variable {n : Nat} {d : Side} {x y t : Shape} {k : Int} {a : Ptr} {path : Path} {f : Frame Int Tag}

@[simp] theorem redBlack_null : RedBlack null n ↔ n = 0 :=
  ⟨fun h => h.blackHeight, fun h => ⟨trivial, h⟩⟩

@[simp] theorem rootColor_null : rootColor null = .black := rfl

@[simp] theorem rootColor_sided (d : Side) (x y : Shape) (k : Int) (tag : Tag) :
    rootColor (sided d x k tag y) = tag.color := by
  cases d <;> rfl

theorem redBlack_red : RedBlack (sided d x k ⟨a, .red⟩ y) n ↔
      RedBlack x n ∧ RedBlack y n ∧ rootColor x = .black ∧ rootColor y = .black := by
  constructor
  · rintro ⟨hr, hb⟩
    cases d with
    | left =>
      rcases hr with ⟨hx, hy, hcolor⟩
      exact ⟨⟨hx, hb.1⟩, ⟨hy, hb.2⟩, hcolor rfl⟩
    | right =>
      rcases hr with ⟨hy, hx, hcolor⟩
      exact ⟨⟨hx, hb.2⟩, ⟨hy, hb.1⟩, (hcolor rfl).symm⟩
  · rintro ⟨hx, hy, hcolor⟩
    cases d with
    | left => exact ⟨⟨hx.noRedRed, hy.noRedRed, fun _ => hcolor⟩, hx.blackHeight, hy.blackHeight⟩
    | right =>
      exact ⟨⟨hy.noRedRed, hx.noRedRed, fun _ => hcolor.symm⟩, hy.blackHeight, hx.blackHeight⟩

theorem redBlack_black : RedBlack (sided d x k ⟨a, .black⟩ y) n ↔
    ∃ m, n = m + 1 ∧ RedBlack x m ∧ RedBlack y m := by
  constructor
  · rintro ⟨hr, hb⟩
    cases d with
    | left =>
      rcases hb with ⟨m, rfl, hx, hy⟩
      exact ⟨m, rfl, ⟨hr.1, hx⟩, ⟨hr.2.1, hy⟩⟩
    | right =>
      rcases hb with ⟨m, rfl, hy, hx⟩
      exact ⟨m, rfl, ⟨hr.2.1, hx⟩, ⟨hr.1, hy⟩⟩
  · rintro ⟨m, rfl, hx, hy⟩
    cases d with
    | left => exact ⟨⟨hx.noRedRed, hy.noRedRed, nofun⟩, m, rfl, hx.blackHeight, hy.blackHeight⟩
    | right => exact ⟨⟨hy.noRedRed, hx.noRedRed, nofun⟩, m, rfl, hy.blackHeight, hx.blackHeight⟩

theorem RedBlack.ne_null (h : RedBlack t (n + 1)) : t ≠ null := by
  rintro rfl
  exact absurd (redBlack_null.1 h) (Nat.succ_ne_zero n)

theorem black_of_ne_red (h : rootColor t ≠ .red) : rootColor t = .black := by
  cases hc : rootColor t with
  | red => exact absurd hc h
  | black => rfl

theorem ne_null_of_red (h : rootColor t = .red) : t ≠ null := by
  rintro rfl
  cases h

def blacken : Shape → Shape
  | null => null
  | node left key tag right => node left key { tag with color := .black } right

@[simp] theorem blacken_sided (d : Side) (x y : Shape) (k : Int) (tag : Tag) :
    blacken (sided d x k tag y) = sided d x k ⟨tag.addr, .black⟩ y := by
  cases d <;> rfl

@[simp] theorem rootColor_blacken (t : Shape) : rootColor (blacken t) = .black := by
  cases t <;> rfl

@[simp] theorem keys_blacken (t : Shape) : (blacken t).keys = t.keys := by
  cases t <;> rfl

theorem blacken_of_black (h : rootColor t = .black) : blacken t = t := by
  rcases t with _ | ⟨left, key, ⟨addr, color⟩, right⟩
  · rfl
  · cases h
    rfl

theorem RedBlack.blacken_of_red (h : RedBlack t n) (hred : rootColor t = .red) :
    RedBlack (blacken t) (n + 1) := by
  rcases exists_sided .left (ne_null_of_red hred) with ⟨x, k, ⟨a, c⟩, y, rfl⟩
  cases hred
  rcases redBlack_red.1 h with ⟨hx, hy, -, -⟩
  rw [blacken_sided]
  exact redBlack_black.2 ⟨n, rfl, hx, hy⟩

/-! ## Paths -/

/-- The node at the place has to be black: it is the root or has a red parent. -/
def MustBeBlack : Path → Prop
  | [] => True
  | f :: _ => f.info.color = .red

/-- The nodes around the place obey the rules and expect black height `n` at the place. -/
def PathOk : Path → Nat → Prop
  | [], _ => True
  | f :: path, n =>
    RedBlack f.sibling n ∧ match f.info.color with
      | .red => rootColor f.sibling = .black ∧ ¬ MustBeBlack path ∧ PathOk path n
      | .black => PathOk path (n + 1)

structure Fits (path : Path) (t : Shape) (n : Nat) : Prop where
  around : PathOk path n
  tree : RedBlack t n
  color : MustBeBlack path → rootColor t = .black

theorem pathOk_red : PathOk (⟨d, k, ⟨a, .red⟩, y⟩ :: path) n ↔
      RedBlack y n ∧ rootColor y = .black ∧ ¬ MustBeBlack path ∧ PathOk path n := Iff.rfl

theorem pathOk_black : PathOk (⟨d, k, ⟨a, .black⟩, y⟩ :: path) n ↔
    RedBlack y n ∧ PathOk path (n + 1) := Iff.rfl

/-- A red frame has a black frame around it. -/
theorem exists_black_frame (h : ¬ MustBeBlack path) :
    ∃ d k a y rest, path = ⟨d, k, ⟨a, .black⟩, y⟩ :: rest := by
  rcases path with _ | ⟨⟨d, k, ⟨a, c⟩, y⟩, rest⟩
  · exact absurd trivial h
  · cases c with
    | red => exact absurd rfl h
    | black => exact ⟨d, k, a, y, rest, rfl⟩

theorem Fits.down {tag : Tag} (h : Fits path (sided d x k tag y) n) :
    ∃ m, Fits (⟨d, k, tag, y⟩ :: path) x m := by
  rcases tag with ⟨a, c⟩
  cases c with
  | red =>
    rcases redBlack_red.1 h.tree with ⟨hx, hy, hcx, hcy⟩
    have hfree : ¬ MustBeBlack path := by
      intro hmust
      have hblack := h.color hmust
      rw [rootColor_sided] at hblack
      cases hblack
    exact ⟨n, pathOk_red.2 ⟨hy, hcy, hfree, h.around⟩, hx, fun _ => hcx⟩
  | black =>
    rcases redBlack_black.1 h.tree with ⟨m, rfl, hx, hy⟩
    exact ⟨m, pathOk_black.2 ⟨hy, h.around⟩, hx, nofun⟩

theorem Fits.up (h : Fits (f :: path) t n) : ∃ m, Fits path (f.fill t) m := by
  rcases f with ⟨d, k, ⟨a, c⟩, y⟩
  cases c with
  | red =>
    rcases pathOk_red.1 h.around with ⟨hy, hcy, hfree, hpath⟩
    exact ⟨n, hpath, redBlack_red.2 ⟨h.tree, hy, h.color rfl, hcy⟩, fun hm => absurd hm hfree⟩
  | black =>
    rcases pathOk_black.1 h.around with ⟨hy, hpath⟩
    exact ⟨n + 1, hpath, redBlack_black.2 ⟨n, rfl, h.tree, hy⟩, fun _ => rootColor_sided ..⟩

def Valid (t : Shape) : Prop := ∃ n, Fits [] t n

theorem Valid.rootColor_eq (h : Valid t) : rootColor t = .black := by
  rcases h with ⟨n, hn⟩
  exact hn.color trivial

theorem Fits.plug (h : Fits path t n) : Valid (plug path t) := by
  induction path generalizing t n with
  | nil => exact ⟨n, h⟩
  | cons f path ih =>
    rcases h.up with ⟨m, hm⟩
    exact ih hm

theorem Valid.fits (h : Valid (SearchTree.plug path t)) : ∃ n, Fits path t n := by
  induction path generalizing t with
  | nil => exact h
  | cons f path ih =>
    rcases ih h with ⟨m, hm⟩
    exact hm.down

/-! ## Repairs of an insertion -/

/-- The state of the loop of `insertFixup`: the tree at the place is red and otherwise in order. -/
structure Risen (path : Path) (t : Shape) (n : Nat) : Prop where
  around : PathOk path n
  tree : RedBlack t n
  color : rootColor t = .red

/-- At the root a black root repairs everything; below a black node nothing is wrong. -/
theorem Risen.valid_blacken (h : Risen [] t n) : Valid (blacken t) :=
  ⟨n + 1, trivial, h.tree.blacken_of_red h.color, fun _ => rootColor_blacken t⟩

theorem Risen.fits (h : Risen path t n) (hfree : ¬ MustBeBlack path) : Fits path t n :=
  ⟨h.around, h.tree, fun hm => absurd hm hfree⟩

variable {path : Path} {t u : Shape} {d e : Side} {kp kg : Int} {p g : Ptr} {y : Shape} {n : Nat}

theorem Risen.grandparent (h : Risen (f :: path) t n) (hred : f.info.color = .red) :
    ∃ e k g u rest, path = ⟨e, k, ⟨g, .black⟩, u⟩ :: rest := by
  rcases f with ⟨d, k, ⟨a, c⟩, y⟩
  cases hred
  rcases pathOk_red.1 h.around with ⟨-, -, hfree, -⟩
  exact exists_black_frame hfree

/-- Case 1: the colours are pushed down from the grandparent, which becomes the red place. -/
theorem Risen.recolor (h : Risen (⟨d, kp, ⟨p, .red⟩, y⟩ :: ⟨e, kg, ⟨g, .black⟩, u⟩ :: path) t n)
    (hu : rootColor u = .red) :
    Risen path (sided e (sided d t kp ⟨p, .black⟩ y) kg ⟨g, .red⟩ (blacken u)) (n + 1) := by
  rcases pathOk_red.1 h.around with ⟨hy, -, -, hrest⟩
  rcases pathOk_black.1 hrest with ⟨hru, hpath⟩
  refine ⟨hpath, redBlack_red.2 ⟨?_, hru.blacken_of_red hu, ?_, ?_⟩, ?_⟩
  · exact redBlack_black.2 ⟨n, rfl, h.tree, hy⟩
  all_goals simp

/-- Case 2: an inner red child is exchanged with its parent. -/
theorem Risen.turn {z : Shape}
    (h : Risen (⟨d.other, kp, ⟨p, .red⟩, y⟩ :: path) (sided d x k ⟨a, .red⟩ z) n) :
    Risen (⟨d, k, ⟨a, .red⟩, z⟩ :: path) (sided d y kp ⟨p, .red⟩ x) n := by
  rcases pathOk_red.1 h.around with ⟨hy, hcy, hfree, hpath⟩
  rcases redBlack_red.1 h.tree with ⟨hx, hz, hcx, hcz⟩
  exact ⟨pathOk_red.2 ⟨hz, hcz, hfree, hpath⟩, redBlack_red.2 ⟨hy, hx, hcy, hcx⟩, by simp⟩

/-- Case 3: the rotation of the grandparent leaves the red node below a black one. -/
theorem Risen.lift (h : Risen (⟨d, kp, ⟨p, .red⟩, y⟩ :: ⟨d, kg, ⟨g, .black⟩, u⟩ :: path) t n)
    (hu : rootColor u = .black) :
    Risen (⟨d, kp, ⟨p, .black⟩, sided d y kg ⟨g, .red⟩ u⟩ :: path) t n := by
  rcases pathOk_red.1 h.around with ⟨hy, hcy, -, hrest⟩
  rcases pathOk_black.1 hrest with ⟨hru, hpath⟩
  refine ⟨pathOk_black.2 ⟨?_, hpath⟩, h.tree, h.color⟩
  exact redBlack_red.2 ⟨hy, hru, hcy, hu⟩

/-! ## Repairs of a deletion -/

/-- The state of the loop of `deleteFixup`: the tree at the place has one black node too few on its
paths, or would not have with a black root. -/
structure Sunk (path : Path) (t : Shape) (n : Nat) : Prop where
  around : PathOk path (n + 1)
  tree : (rootColor t = .black ∧ RedBlack t n) ∨ (rootColor t = .red ∧ RedBlack (blacken t) (n + 1))

/-- A red root is made black and the deficit is gone. -/
theorem Sunk.fits_of_red (h : Sunk path t n) (hred : rootColor t = .red) :
    Fits path (blacken t) (n + 1) := by
  rcases h.tree with ⟨hblack, -⟩ | ⟨-, htree⟩
  · rw [hred] at hblack
    cases hblack
  · exact ⟨h.around, htree, fun _ => rootColor_blacken t⟩

theorem Sunk.valid_blacken (h : Sunk [] t n) : Valid (blacken t) := by
  rcases h.tree with ⟨hblack, htree⟩ | ⟨-, htree⟩
  · rw [blacken_of_black hblack]
    exact ⟨n, trivial, htree, fun _ => hblack⟩
  · exact ⟨n + 1, trivial, htree, fun _ => rootColor_blacken t⟩

theorem Sunk.redBlack (h : Sunk path t n) (hblack : rootColor t = .black) : RedBlack t n := by
  rcases h.tree with ⟨-, htree⟩ | ⟨hred, -⟩
  · exact htree
  · rw [hred] at hblack
    cases hblack

variable {kw : Int} {w : Ptr} {c : Color} {near far : Shape}

/-- The sibling of a place with a deficit is a node. -/
theorem Sunk.sibling_ne_null (h : Sunk (f :: path) t n) : f.sibling ≠ null :=
  RedBlack.ne_null h.around.1

/-- Case 1: a red sibling has a black parent, and rotating it up leaves a black sibling. -/
theorem Sunk.redSibling (h : Sunk (⟨d, kp, ⟨p, c⟩, sided d near kw ⟨w, .red⟩ far⟩ :: path) t n) :
    c = .black ∧ Sunk (⟨d, kp, ⟨p, .red⟩, near⟩ :: ⟨d, kw, ⟨w, .black⟩, far⟩ :: path) t n := by
  rcases redBlack_red.1 h.around.1 with ⟨hnear, hfar, hcnear, -⟩
  cases c with
  | red =>
    rcases pathOk_red.1 h.around with ⟨-, hblack, -, -⟩
    rw [rootColor_sided] at hblack
    cases hblack
  | black =>
    rcases pathOk_black.1 h.around with ⟨-, hpath⟩
    refine ⟨rfl, pathOk_red.2 ⟨hnear, hcnear, nofun, ?_⟩, h.tree⟩
    exact pathOk_black.2 ⟨hfar, hpath⟩

/-- Case 2: a black sibling without a red child becomes red and the deficit moves up. -/
theorem Sunk.moveUp (h : Sunk (⟨d, kp, ⟨p, c⟩, sided d near kw ⟨w, .black⟩ far⟩ :: path) t n)
    (ht : rootColor t = .black) (hnear : rootColor near = .black) (hfar : rootColor far = .black) :
    ∃ m, Sunk path (sided d t kp ⟨p, c⟩ (sided d near kw ⟨w, .red⟩ far)) m := by
  rcases redBlack_black.1 h.around.1 with ⟨m, hm, hrn, hrf⟩
  cases hm
  have hw : RedBlack (sided d near kw ⟨w, .red⟩ far) n := redBlack_red.2 ⟨hrn, hrf, hnear, hfar⟩
  have htree : RedBlack (sided d t kp ⟨p, .black⟩ (sided d near kw ⟨w, .red⟩ far)) (n + 1) :=
    redBlack_black.2 ⟨n, rfl, h.redBlack ht, hw⟩
  cases c with
  | red =>
    rcases pathOk_red.1 h.around with ⟨-, -, -, hpath⟩
    refine ⟨n, hpath, .inr ⟨rootColor_sided .., ?_⟩⟩
    rwa [blacken_sided]
  | black =>
    rcases pathOk_black.1 h.around with ⟨-, hpath⟩
    exact ⟨n + 1, hpath, .inl ⟨rootColor_sided .., htree⟩⟩

/-- Case 3: a red near child of the sibling is rotated up. -/
theorem Sunk.turn
    (h : Sunk (⟨d, kp, ⟨p, c⟩, sided d (sided d x k ⟨a, .red⟩ y) kw ⟨w, .black⟩ far⟩ :: path) t n)
    (hfar : rootColor far = .black) :
    Sunk (⟨d, kp, ⟨p, c⟩, sided d x k ⟨a, .black⟩ (sided d y kw ⟨w, .red⟩ far)⟩ :: path) t n := by
  rcases redBlack_black.1 h.around.1 with ⟨m, hm, hrn, hrf⟩
  cases hm
  rcases redBlack_red.1 hrn with ⟨hx, hy, hcx, hcy⟩
  have hsib : RedBlack (sided d x k ⟨a, .black⟩ (sided d y kw ⟨w, .red⟩ far)) (n + 1) :=
    redBlack_black.2 ⟨n, rfl, hx, redBlack_red.2 ⟨hy, hrf, hcy, hfar⟩⟩
  refine ⟨?_, h.tree⟩
  cases c with
  | red =>
    rcases pathOk_red.1 h.around with ⟨-, -, hfree, hpath⟩
    exact pathOk_red.2 ⟨hsib, rootColor_sided .., hfree, hpath⟩
  | black =>
    rcases pathOk_black.1 h.around with ⟨-, hpath⟩
    exact pathOk_black.2 ⟨hsib, hpath⟩

/-- Case 4: the sibling takes the parent's place, and its red far child pays for the deficit. -/
theorem Sunk.lift (h : Sunk (⟨d, kp, ⟨p, c⟩, sided d near kw ⟨w, .black⟩ far⟩ :: path) t n)
    (ht : rootColor t = .black) (hfar : rootColor far = .red) :
    ∃ m, Fits path (sided d (sided d t kp ⟨p, .black⟩ near) kw ⟨w, c⟩ (blacken far)) m := by
  rcases redBlack_black.1 h.around.1 with ⟨m, hm, hrn, hrf⟩
  cases hm
  have hp : RedBlack (sided d t kp ⟨p, .black⟩ near) (n + 1) :=
    redBlack_black.2 ⟨n, rfl, h.redBlack ht, hrn⟩
  have hf : RedBlack (blacken far) (n + 1) := hrf.blacken_of_red hfar
  cases c with
  | red =>
    rcases pathOk_red.1 h.around with ⟨-, -, hfree, hpath⟩
    refine ⟨n + 1, hpath, redBlack_red.2 ⟨hp, hf, ?_, ?_⟩, fun hm => absurd hm hfree⟩
    all_goals simp
  | black =>
    rcases pathOk_black.1 h.around with ⟨-, hpath⟩
    exact ⟨n + 2, hpath, redBlack_black.2 ⟨n + 1, rfl, hp, hf⟩, by simp⟩

end SystemsLab.RbTree
