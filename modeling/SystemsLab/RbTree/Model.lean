import SystemsLab.Data.CallSequence
import SystemsLab.Data.Heap
import SystemsLab.Data.TreePath

/-!
# The red-black tree of `rb-tree.c`

Nodes are cells of a heap and point to each other and to their parents; `NIL` is a cell of its own
whose `parent` field the deletion writes.  Every function passes the tree along and fails (`none`)
when it dereferences an address that is not allocated, and also in three places where the source
would go on silently: a rotation around a missing child, a missing grandparent in `insertFixup`, and
a missing sibling in `deleteFixup`.  Loops are bounded by the number of addresses ever used and fail
when the bound is reached.

The mirrored halves of the rotations and of the two repairs are one definition with the side as a
parameter.
-/

namespace SystemsLab.RbTree

open CallSequence

inductive Color where
  | red
  | black
  deriving DecidableEq, Repr

abbrev Ptr := Nat

structure RBNode where
  key : Int
  color : Color
  left : Ptr
  right : Ptr
  parent : Ptr
  deriving DecidableEq, Repr

def NIL : Ptr := 0

/-- `RBTree`, with the memory that holds its nodes. -/
structure RBTree where
  root : Ptr
  heap : Heap RBNode

def newNode (key : Int) : RBNode := ⟨key, .red, NIL, NIL, NIL⟩

/-- The sentinel that `init` allocates, with `parent` in its later use. -/
def nilNode (parent : Ptr) : RBNode := ⟨0, .black, NIL, NIL, parent⟩

def init : RBTree := ⟨NIL, Heap.empty.alloc NIL (nilNode NIL)⟩

/-! ## Field accesses -/

namespace RBNode

def child (n : RBNode) : Side → Ptr
  | .left => n.left
  | .right => n.right

def setChild (n : RBNode) (d : Side) (p : Ptr) : RBNode :=
  match d with
  | .left => { n with left := p }
  | .right => { n with right := p }

end RBNode

namespace RBTree

def keyOf (s : RBTree) (a : Ptr) : Option Int := (s.heap.cell a).map RBNode.key

def colorOf (s : RBTree) (a : Ptr) : Option Color := (s.heap.cell a).map RBNode.color

def parentOf (s : RBTree) (a : Ptr) : Option Ptr := (s.heap.cell a).map RBNode.parent

def childOf (s : RBTree) (d : Side) (a : Ptr) : Option Ptr :=
  (s.heap.cell a).map fun n => n.child d

/-- A write to the fields of `a`. -/
def update (s : RBTree) (a : Ptr) (f : RBNode → RBNode) : Option RBTree :=
  (s.heap.modify a f).map fun h => { s with heap := h }

def setColor (s : RBTree) (a : Ptr) (c : Color) : Option RBTree :=
  s.update a fun n => { n with color := c }

def setParent (s : RBTree) (a p : Ptr) : Option RBTree :=
  s.update a fun n => { n with parent := p }

def setChild (s : RBTree) (d : Side) (a p : Ptr) : Option RBTree :=
  s.update a fun n => n.setChild d p

end RBTree

open RbTree.RBTree

/-! ## Rotations -/

/-- The lines `if (u->parent == NIL) tree->root = v; else if (u == u->parent->left) ..` of both
rotations and of `transplant`, with `p` for `u->parent`. -/
def replaceChild (s : RBTree) (u v p : Ptr) : Option RBTree :=
  if p = NIL then some { s with root := v }
  else do
    let pl ← s.childOf .left p
    if u = pl then s.setChild .left p v else s.setChild .right p v

/-- `if (b != NIL) b->parent = x`. -/
def setParentOfNode (s : RBTree) (b x : Ptr) : Option RBTree :=
  if b ≠ NIL then s.setParent b x else some s

/-- A rotation around `x` towards the side `d`. -/
def rotate (d : Side) (s : RBTree) (x : Ptr) : Option RBTree := do
  let y ← s.childOf d.other x
  if y = NIL then none else
  let b ← s.childOf d y
  let s ← s.setChild d.other x b
  let s ← setParentOfNode s b x
  let p ← s.parentOf x
  let s ← s.setParent y p
  let s ← replaceChild s x y p
  let s ← s.setChild d y x
  s.setParent x y

def leftRotate (s : RBTree) (x : Ptr) : Option RBTree := rotate .left s x

def rightRotate (s : RBTree) (y : Ptr) : Option RBTree := rotate .right s y

/-! ## Insertion -/

/-- `z->parent->parent`, which has to be a node. -/
def grandparent (s : RBTree) (z : Ptr) : Option Ptr := do
  let p ← s.parentOf z
  let g ← s.parentOf p
  if g = NIL then none else some g

/-- The side of `a` on which the address `p` hangs: `p == a->left` or not. -/
def sideOf (s : RBTree) (p a : Ptr) : Option Side := do
  let l ← s.childOf .left a
  some (if p = l then .left else .right)

/-- Case 2 of `insertFixup`: an inner child is rotated outwards. -/
def insertFixupInner (d : Side) (s : RBTree) (z : Ptr) : Option (RBTree × Ptr) := do
  let p ← s.parentOf z
  let inner ← s.childOf d.other p
  if z = inner then do
    let s ← rotate d s p
    some (s, p)
  else some (s, z)

/-- Case 3 of `insertFixup`: the grandparent is rotated away from the uncle. -/
def insertFixupOuter (d : Side) (s : RBTree) (z : Ptr) : Option (RBTree × Ptr) := do
  let p ← s.parentOf z
  let s ← s.setColor p .black
  let g ← grandparent s z
  let s ← s.setColor g .red
  let s ← rotate d.other s g
  some (s, z)

def insertFixupStep (s : RBTree) (z : Ptr) : Option (RBTree × Ptr) := do
  let p ← s.parentOf z
  let g ← grandparent s z
  let d ← sideOf s p g
  let y ← s.childOf d.other g
  let yColor ← s.colorOf y
  if yColor = .red then do
    -- case 1: a red uncle, and the violation moves up to the grandparent
    let s ← s.setColor p .black
    let s ← s.setColor y .black
    let s ← s.setColor g .red
    some (s, g)
  else do
    let (s, z) ← insertFixupInner d s z
    insertFixupOuter d s z

def insertFixupLoop : Nat → RBTree → Ptr → Option RBTree
  | 0, _, _ => none
  | fuel + 1, s, z => do
      let p ← s.parentOf z
      let pColor ← s.colorOf p
      if pColor = .red then do
        let (s, z) ← insertFixupStep s z
        insertFixupLoop fuel s z
      else some s

def insertFixup (s : RBTree) (z : Ptr) : Option RBTree := do
  let s ← insertFixupLoop s.heap.brk s z
  s.setColor s.root .black

/-- The descent of `insert`.  `some none` is a duplicate; `some (some y)` is the parent of the new
node. -/
def insertDescend (key : Int) : Nat → RBTree → Ptr → Ptr → Option (Option Ptr)
  | 0, _, _, _ => none
  | fuel + 1, s, y, x =>
    if x = NIL then some (some y)
    else do
      let xkey ← s.keyOf x
      if key < xkey then do
        let x' ← s.childOf .left x
        insertDescend key fuel s x x'
      else if key > xkey then do
        let x' ← s.childOf .right x
        insertDescend key fuel s x x'
      else some none

/-- The pointer to the new node `z`, in the tree or in its parent `y`. -/
def attach (s : RBTree) (key : Int) (z y : Ptr) : Option RBTree :=
  if y = NIL then some { s with root := z }
  else do
    let ykey ← s.keyOf y
    if key < ykey then s.setChild .left y z else s.setChild .right y z

/-- The lines of `insert` that hang `z` below `y`. -/
def link (s : RBTree) (key : Int) (z y : Ptr) : Option RBTree := do
  let s ← s.setParent z y
  let s ← attach s key z y
  let s ← s.setChild .left z NIL
  let s ← s.setChild .right z NIL
  s.setColor z .red

/-- `insert` after the call of `newNode`, which returned `z`. -/
def insertNode (s : RBTree) (key : Int) (z : Ptr) : Option RBTree := do
  let found ← insertDescend key s.heap.brk s NIL s.root
  match found with
  | none => some { s with heap := s.heap.free z }
  | some y => do
      let s ← link s key z y
      insertFixup s z

/-- `insert`; the new node is allocated first and freed again for a duplicate. -/
def insert (s : RBTree) (key : Int) (hint : Ptr) : Option RBTree :=
  insertNode { s with heap := s.heap.alloc hint (newNode key) } key (s.heap.freshAddr hint)

/-! ## Search -/

/-- The loop of `search` and the first loop of `delete`, which stop at the key or at `NIL`. -/
def locate (key : Int) : Nat → RBTree → Ptr → Option Ptr
  | 0, _, _ => none
  | fuel + 1, s, x =>
    if x = NIL then some NIL
    else do
      let xkey ← s.keyOf x
      if key = xkey then some x
      else do
        let x' ← s.childOf (if key < xkey then .left else .right) x
        locate key fuel s x'

/-- `search`; the inner `none` is `NULL`. -/
def search (s : RBTree) (key : Int) : Option (Option Ptr) := do
  let x ← locate key s.heap.brk s s.root
  some (if x = NIL then none else some x)

/-! ## Deletion -/

def treeMinimum : Nat → RBTree → Ptr → Option Ptr
  | 0, _, _ => none
  | fuel + 1, s, x => do
      let l ← s.childOf .left x
      if l = NIL then some x else treeMinimum fuel s l

def transplant (s : RBTree) (u v : Ptr) : Option RBTree := do
  let p ← s.parentOf u
  let s ← replaceChild s u v p
  let p ← s.parentOf u
  s.setParent v p

/-- `w`, the sibling of `x` when `x` hangs on the side `d`; it has to be a node. -/
def sibling (d : Side) (s : RBTree) (x : Ptr) : Option Ptr := do
  let p ← s.parentOf x
  let w ← s.childOf d.other p
  if w = NIL then none else some w

/-- Case 1 of `deleteFixup`: a red sibling is rotated above the parent. -/
def deleteFixupRed (d : Side) (s : RBTree) (x : Ptr) : Option RBTree := do
  let w ← sibling d s x
  let wColor ← s.colorOf w
  if wColor = .red then do
    let s ← s.setColor w .black
    let p ← s.parentOf x
    let s ← s.setColor p .red
    rotate d s p
  else some s

/-- Case 3 of `deleteFixup`: a red child of the sibling is rotated to the far side. -/
def deleteFixupNear (d : Side) (s : RBTree) (x : Ptr) : Option RBTree := do
  let w ← sibling d s x
  let far ← s.childOf d.other w
  let farColor ← s.colorOf far
  if farColor = .black then do
    let near ← s.childOf d w
    let s ← s.setColor near .black
    let s ← s.setColor w .red
    rotate d.other s w
  else some s

/-- Case 4 of `deleteFixup`: the sibling takes the place and the colour of the parent. -/
def deleteFixupFar (d : Side) (s : RBTree) (x : Ptr) : Option (RBTree × Ptr) := do
  let w ← sibling d s x
  let p ← s.parentOf x
  let pColor ← s.colorOf p
  let s ← s.setColor w pColor
  let s ← s.setColor p .black
  let far ← s.childOf d.other w
  let s ← s.setColor far .black
  let s ← rotate d s p
  some (s, s.root)

def deleteFixupStep (s : RBTree) (x : Ptr) : Option (RBTree × Ptr) := do
  let p ← s.parentOf x
  let d ← sideOf s x p
  let s ← deleteFixupRed d s x
  let w ← sibling d s x
  let near ← s.childOf d w
  let nearColor ← s.colorOf near
  let far ← s.childOf d.other w
  let farColor ← s.colorOf far
  if nearColor = .black ∧ farColor = .black then do
    -- case 2: the sibling can be painted, and the deficit moves up to the parent
    let s ← s.setColor w .red
    let p ← s.parentOf x
    some (s, p)
  else do
    let s ← deleteFixupNear d s x
    deleteFixupFar d s x

def deleteFixupLoop : Nat → RBTree → Ptr → Option (RBTree × Ptr)
  | 0, _, _ => none
  | fuel + 1, s, x => do
      let xColor ← s.colorOf x
      if x ≠ s.root ∧ xColor = .black then do
        let (s, x) ← deleteFixupStep s x
        deleteFixupLoop fuel s x
      else some (s, x)

def deleteFixup (s : RBTree) (x : Ptr) : Option RBTree := do
  let (s, x) ← deleteFixupLoop s.heap.brk s x
  s.setColor x .black

/-- The successor `y` of `z` hands its place to its child `x` and takes over the right subtree of
`z`, unless it is the root of that subtree. -/
def detachSuccessor (s : RBTree) (z y x : Ptr) : Option RBTree := do
  let yp ← s.parentOf y
  -- `x` may be `NIL`, whose parent `deleteFixup` will read
  if yp = z then s.setParent x y
  else do
    let s ← transplant s y x
    let zr ← s.childOf .right z
    let s ← s.setChild .right y zr
    s.setParent zr y

/-- The successor `y` takes over the place, the left subtree and the colour of `z`. -/
def takePlace (s : RBTree) (z y : Ptr) : Option RBTree := do
  let s ← transplant s z y
  let zl ← s.childOf .left z
  let s ← s.setChild .left y zl
  let s ← s.setParent zl y
  let zColor ← s.colorOf z
  s.setColor y zColor

/-- The last branch of `delete`: the successor `y` of `z` is moved into the place of `z`.  The
result is the node that took the place of `y`. -/
def spliceSuccessor (s : RBTree) (z y : Ptr) : Option (RBTree × Ptr) := do
  let x ← s.childOf .right y
  let s ← detachSuccessor s z y x
  let s ← takePlace s z y
  some (s, x)

/-- `delete` of the node `z`, up to `free(z)`: the tree, the node `x` that moved up, and the colour
that the tree lost. -/
def spliceOut (s : RBTree) (z : Ptr) : Option (RBTree × Ptr × Color) := do
  let zl ← s.childOf .left z
  let zr ← s.childOf .right z
  let zColor ← s.colorOf z
  if zl = NIL then do
    let s ← transplant s z zr
    some (s, zr, zColor)
  else if zr = NIL then do
    let s ← transplant s z zl
    some (s, zl, zColor)
  else do
    let y ← treeMinimum s.heap.brk s zr
    let yColor ← s.colorOf y
    let (s, x) ← spliceSuccessor s z y
    some (s, x, yColor)

def delete (s : RBTree) (key : Int) : Option RBTree := do
  let z ← locate key s.heap.brk s s.root
  if z = NIL then some s
  else do
    let (s, x, color) ← spliceOut s z
    let s : RBTree := { s with heap := s.heap.free z }
    if color = .black then deleteFixup s x else some s

/-! ## Sequences of calls -/

/-- A call; an insertion comes with the address that `malloc` would like to hand out. -/
inductive Call where
  | insert (key : Int) (hint : Ptr)
  | delete (key : Int)

/-- The call on a set that a call on the tree stands for. -/
def Call.toSetCall : Call → SetCall Int
  | .insert key _ => .insert key
  | .delete key => .delete key

def call (s : RBTree) : Call → Option RBTree
  | .insert key hint => insert s key hint
  | .delete key => delete s key

def run (calls : List Call) : Option RBTree := runCalls call init calls

end SystemsLab.RbTree
