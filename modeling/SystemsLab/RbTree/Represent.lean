import SystemsLab.RbTree.Shape

/-!
# Trees in memory

`Rep s T` says that the memory of `s` holds the abstract tree `T`: the cell of every node has the
key and colour of the node, points to the roots of its two subtrees, and points back to its parent.
Since `plug (f :: path) t` is `plug path (f.fill t)`, a walk along the tree needs no lemma; each
field access and each operation has one lemma about `Rep s (plug path t)`.
-/

namespace SystemsLab.RbTree

open SearchTree RbTree.RBTree List Option Heap

def ptr : Shape → Ptr
  | null => NIL
  | node _ _ tag _ => tag.addr

def addrs : Shape → List Ptr
  | null => []
  | node left _ tag right => tag.addr :: (addrs left ++ addrs right)

/-- The cell of a node that is seen from the side `d`. -/
def sidedNode (d : Side) (key : Int) (color : Color) (near far parent : Ptr) : RBNode :=
  match d with
  | .left => ⟨key, color, near, far, parent⟩
  | .right => ⟨key, color, far, near, parent⟩

/-- The subtree `t` is in memory, below the node at `parent`. -/
def Sub (cell : Ptr → Option RBNode) (parent : Ptr) : Shape → Prop
  | null => True
  | node left key tag right =>
    tag.addr ≠ NIL ∧ cell tag.addr = some ⟨key, tag.color, ptr left, ptr right, parent⟩ ∧
      Sub cell tag.addr left ∧ Sub cell tag.addr right

/-- The tree `T` is in memory: children and parents point to each other, the addresses are distinct,
and the sentinel is black. -/
structure Rep (s : RBTree) (T : Shape) : Prop where
  sub : Sub s.heap.cell NIL T
  root : s.root = ptr T
  nodup : (addrs T).Nodup
  sentinel : ∃ parent, s.heap.cell NIL = some (nilNode parent)

/-! ## Cells seen from a side -/

variable {d : Side} {x y : Shape} {k : Int} {tag : Tag} {cell cell' : Ptr → Option RBNode}
  {parent : Ptr}

@[simp] theorem ptr_null : ptr null = NIL := rfl

@[simp] theorem ptr_node {left right : Shape} : ptr (node left k tag right) = tag.addr := rfl

@[simp] theorem ptr_sided : ptr (sided d x k tag y) = tag.addr := by cases d <;> rfl

variable {c : Color} {near far p q : Ptr} {t : Shape}

@[simp] theorem child_sidedNode : (sidedNode d k c near far p).child d = near := by cases d <;> rfl

@[simp] theorem child_other_sidedNode : (sidedNode d k c near far p).child d.other = far := by
    cases d <;> rfl

@[simp] theorem setChild_sidedNode :
    (sidedNode d k c near far p).setChild d q = sidedNode d k c q far p := by cases d <;> rfl

@[simp] theorem setChild_other_sidedNode :
    (sidedNode d k c near far p).setChild d.other q = sidedNode d k c near q p := by
  cases d <;> rfl

@[simp] theorem sidedNode_key : (sidedNode d k c near far p).key = k := by cases d <;> rfl

@[simp] theorem sidedNode_parent : (sidedNode d k c near far p).parent = p := by cases d <;> rfl

@[simp] theorem sidedNode_with_parent :
    { sidedNode d k c near far p with parent := q } = sidedNode d k c near far q := by
  cases d <;> rfl

@[simp] theorem sidedNode_with_color {c' : Color} :
    { sidedNode d k c near far p with color := c' } = sidedNode d k c' near far p := by
  cases d <;> rfl

theorem sub_sided : Sub cell parent (sided d x k tag y) ↔
      tag.addr ≠ NIL ∧ cell tag.addr = some (sidedNode d k tag.color (ptr x) (ptr y) parent) ∧
        Sub cell tag.addr x ∧ Sub cell tag.addr y := by
  cases d with
  | left => exact Iff.rfl
  | right =>
    simp only [sided, Sub]
    tauto

theorem addrs_sided : (addrs (sided d x k tag y)).Perm (tag.addr :: (addrs x ++ addrs y)) := by
  cases d with
  | left => exact .refl _
  | right => exact .cons _ perm_append_comm

theorem ptr_mem_addrs (h : t ≠ null) : ptr t ∈ addrs t := by
  cases t with
  | null => exact absurd rfl h
  | node left key tag right => exact mem_cons_self

theorem Sub.congr (h : Sub cell parent t) (hcell : ∀ a ∈ addrs t, cell' a = cell a) :
    Sub cell' parent t := by
  induction t generalizing parent with
  | null => trivial
  | node left key tag right ihl ihr =>
    rcases h with ⟨hne, hroot, hl, hr⟩
    refine ⟨hne, ?_, ihl hl ?_, ihr hr ?_⟩
    · rw [hcell tag.addr mem_cons_self, hroot]
    · exact fun a ha => hcell a (by simp [addrs, ha])
    · exact fun a ha => hcell a (by simp [addrs, ha])

/-- A subtree is moved below another node by a write to the `parent` field of its root. -/
theorem Sub.reparent (h : Sub cell parent t) (hn : (addrs t).Nodup)
    (hroot : t ≠ null → cell' (ptr t) = (cell (ptr t)).map fun n => { n with parent := q })
    (hcell : ∀ a ∈ addrs t, a ≠ ptr t → cell' a = cell a) : Sub cell' q t := by
  cases t with
  | null => trivial
  | node left key tag right =>
    rcases h with ⟨hne, hcell0, hl, hr⟩
    rcases nodup_cons.1 hn with ⟨hnot, -⟩
    have hside : ∀ a ∈ addrs left ++ addrs right, cell' a = cell a := by
      intro a ha
      apply hcell a (mem_cons_of_mem _ ha)
      rintro rfl
      exact hnot ha
    refine ⟨hne, ?_, hl.congr ?_, hr.congr ?_⟩
    · have hwritten := hroot (by simp)
      simp only [ptr] at hwritten
      rw [hwritten, hcell0, map_some]
    · exact fun a ha => hside a (mem_append_left _ ha)
    · exact fun a ha => hside a (mem_append_right _ ha)

theorem Sub.ne_nil (h : Sub cell parent t) : NIL ∉ addrs t := by
  induction t generalizing parent with
  | null => simp [addrs]
  | node left key tag right ihl ihr =>
    rcases h with ⟨hne, -, hl, hr⟩
    simp only [addrs, mem_cons, mem_append, not_or]
    exact ⟨Ne.symm hne, ihl hl, ihr hr⟩

theorem Sub.allocated (h : Sub cell parent t) : ∀ a ∈ addrs t, ∃ n, cell a = some n := by
  induction t generalizing parent with
  | null => simp [addrs]
  | node left key tag right ihl ihr =>
    rcases h with ⟨-, hroot, hl, hr⟩
    intro a ha
    simp only [addrs, mem_cons, mem_append] at ha
    rcases ha with rfl | ha | ha
    · exact ⟨_, hroot⟩
    · exact ihl hl a ha
    · exact ihr hr a ha

theorem Sub.ptr_allocated (h : Sub cell parent t)
    (hnil : ∃ parent, cell NIL = some (nilNode parent)) : ∃ n, cell (ptr t) = some n := by
  by_cases ht : t = null
  · subst ht
    rcases hnil with ⟨parent, hcell⟩
    exact ⟨_, hcell⟩
  · exact h.allocated _ (ptr_mem_addrs ht)

theorem Sub.ptr_eq_nil (h : Sub cell parent t) : ptr t = NIL ↔ t = null := by
  cases t with
  | null => simp
  | node left key tag right =>
    simp only [reduceCtorEq, iff_false]
    exact h.1

/-! ## The memory around a place -/

def holeParent : Path → Ptr
  | [] => NIL
  | f :: _ => f.info.addr

/-- The address of the root of the whole tree, with `p` at the place. -/
def topPtr : Path → Ptr → Ptr
  | [], p => p
  | f :: path, _ => topPtr path f.info.addr

def pathAddrs : Path → List Ptr
  | [] => []
  | f :: path => f.info.addr :: (addrs f.sibling ++ pathAddrs path)

/-- The nodes around the place are in memory, with the pointer `p` at the place. -/
def Around (cell : Ptr → Option RBNode) : Path → Ptr → Prop
  | [], _ => True
  | f :: path, p =>
    f.info.addr ≠ NIL ∧ cell f.info.addr =
        some (sidedNode f.side f.key f.info.color p (ptr f.sibling) (holeParent path)) ∧
      Sub cell f.info.addr f.sibling ∧ Around cell path f.info.addr

variable {path : Path}

theorem sub_plug : Sub cell NIL (plug path t) ↔
    Around cell path (ptr t) ∧ Sub cell (holeParent path) t := by
  induction path generalizing t with
  | nil => simp [Around, holeParent]
  | cons f path ih =>
    rw [plug_cons, ih, Frame.fill, ptr_sided, sub_sided]
    simp only [Around]
    tauto

theorem ptr_plug : ptr (plug path t) = topPtr path (ptr t) := by
  induction path generalizing t with
  | nil => rfl
  | cons f path ih => rw [plug_cons, ih, Frame.fill, ptr_sided, topPtr]

theorem addrs_plug : (addrs (plug path t)).Perm (addrs t ++ pathAddrs path) := by
  induction path generalizing t with
  | nil => simp [pathAddrs]
  | cons f path ih =>
    have hfill : (addrs (f.fill t)).Perm (f.info.addr :: (addrs t ++ addrs f.sibling)) :=
      addrs_sided
    calc
      (addrs (plug (f :: path) t)).Perm (addrs (f.fill t) ++ pathAddrs path) := ih
      Perm _ (f.info.addr :: (addrs t ++ addrs f.sibling) ++ pathAddrs path) := hfill.append_right _
      Perm _ (addrs t ++ pathAddrs (f :: path)) := by
        simp only [cons_append, append_assoc]
        exact perm_middle.symm

theorem mem_pathAddrs_append (p : Path) (q : Path) {a : Ptr} (h : a ∈ pathAddrs q) :
    a ∈ pathAddrs (p ++ q) := by
  induction p with
  | nil => exact h
  | cons f p ih =>
    simp only [cons_append, pathAddrs, mem_cons, mem_append]
    exact .inr (.inr ih)

theorem Around.congr (h : Around cell path p) (hcell : ∀ a ∈ pathAddrs path, cell' a = cell a) :
    Around cell' path p := by
  induction path generalizing p with
  | nil => trivial
  | cons f path ih =>
    rcases h with ⟨hne, hf, hsib, hrest⟩
    refine ⟨hne, ?_, hsib.congr ?_, ih hrest ?_⟩
    · rw [hcell f.info.addr mem_cons_self, hf]
    · exact fun a ha => hcell a (by simp [pathAddrs, ha])
    · exact fun a ha => hcell a (by simp [pathAddrs, ha])

theorem Around.ne_nil (h : Around cell path p) : NIL ∉ pathAddrs path := by
  induction path generalizing p with
  | nil => simp [pathAddrs]
  | cons f path ih =>
    rcases h with ⟨hne, -, hsib, hrest⟩
    simp only [pathAddrs, mem_cons, mem_append, not_or]
    exact ⟨Ne.symm hne, hsib.ne_nil, ih hrest⟩

/-! ## Building and reading a representation -/

variable {s s' : RBTree} {f : Frame Int Tag}

theorem Rep.around (h : Rep s (plug path t)) : Around s.heap.cell path (ptr t) :=
  (sub_plug.1 h.sub).1

theorem Rep.subtree (h : Rep s (plug path t)) : Sub s.heap.cell (holeParent path) t :=
  (sub_plug.1 h.sub).2

theorem Rep.nodup_addrs (h : Rep s (plug path t)) : (addrs t ++ pathAddrs path).Nodup :=
  addrs_plug.nodup_iff.1 h.nodup

theorem Rep.mk_plug (haround : Around s.heap.cell path (ptr t))
    (hsub : Sub s.heap.cell (holeParent path) t) (hroot : s.root = topPtr path (ptr t))
    (hnodup : (addrs t ++ pathAddrs path).Nodup)
    (hnil : ∃ parent, s.heap.cell NIL = some (nilNode parent)) : Rep s (plug path t) :=
  ⟨sub_plug.2 ⟨haround, hsub⟩, by rw [hroot, ptr_plug], addrs_plug.nodup_iff.2 hnodup, hnil⟩

theorem Rep.root_plug (h : Rep s (plug path t)) : s.root = topPtr path (ptr t) := by
  rw [h.root, ptr_plug]

theorem Rep.ptr_eq_nil (h : Rep s (plug path t)) : ptr t = NIL ↔ t = null := h.subtree.ptr_eq_nil

theorem Rep.colorOf_eq (h : Rep s (plug path t)) : s.colorOf (ptr t) = some (rootColor t) := by
  cases t with
  | null =>
    rcases h.sentinel with ⟨parent, hnil⟩
    simp [colorOf, hnil, nilNode]
  | node left key tag right =>
    rcases h.subtree with ⟨-, hcell, -, -⟩
    simp [colorOf, hcell, rootColor]

section

variable (h : Rep s (plug path (sided d x k tag y)))

include h

theorem Rep.cell_eq :
    s.heap.cell tag.addr = some (sidedNode d k tag.color (ptr x) (ptr y) (holeParent path)) :=
  (sub_sided.1 h.subtree).2.1

theorem Rep.addr_ne_nil : tag.addr ≠ NIL := (sub_sided.1 h.subtree).1

theorem Rep.keyOf_eq : s.keyOf tag.addr = some k := by
  simp [keyOf, h.cell_eq]

theorem Rep.childOf_eq : s.childOf d tag.addr = some (ptr x) := by
  simp [childOf, h.cell_eq]

theorem Rep.childOf_other_eq : s.childOf d.other tag.addr = some (ptr y) := by
  simp [childOf, h.cell_eq]

theorem Rep.parentOf_eq : s.parentOf tag.addr = some (holeParent path) := by
  simp [parentOf, h.cell_eq]

end

theorem Rep.parentOf_ptr (h : Rep s (plug path t)) (ht : t ≠ null) :
    s.parentOf (ptr t) = some (holeParent path) := by
  rcases exists_sided .left ht with ⟨x, k, tag, y, rfl⟩
  exact h.parentOf_eq

theorem Rep.ptr_ne_sibling (h : Rep s (plug (f :: path) t))
    (hne : t ≠ null ∨ f.sibling ≠ null) : ptr t ≠ ptr f.sibling := by
  have hsub := h.around.2.2.1
  have hdisj := (nodup_append.1 h.nodup_addrs).2.2
  intro heq
  have hiff : t = null ↔ f.sibling = null := by rw [← h.ptr_eq_nil, heq, hsub.ptr_eq_nil]
  have ht : t ≠ null := by tauto
  have hsib : f.sibling ≠ null := by tauto
  apply hdisj (ptr t) (ptr_mem_addrs ht) (ptr f.sibling) _ heq
  simp [pathAddrs, ptr_mem_addrs hsib]

theorem Rep.sideOf_eq (h : Rep s (plug (f :: path) t))
    (hne : ptr t ≠ ptr f.sibling) : sideOf s (ptr t) f.info.addr = some f.side := by
  rcases f with ⟨d, k, tag, y⟩
  have hrep : Rep s (plug path (sided d t k tag y)) := h
  cases d with
  | left => simp [sideOf, hrep.childOf_eq]
  | right =>
    have hchild : s.childOf Side.right.other tag.addr = some (ptr y) := hrep.childOf_other_eq
    simp only [Side.other] at hchild
    simp [sideOf, hchild, hne]

theorem Rep.size_lt_brk {T : Shape} (h : Rep s T) : (addrs T).length < s.heap.brk := by
  rcases h.sentinel with ⟨parent, hnil⟩
  have hlen : (NIL :: addrs T).length ≤ s.heap.brk := by
    apply length_le_brk
    · exact nodup_cons.2 ⟨h.sub.ne_nil, h.nodup⟩
    · intro a ha
      rcases mem_cons.1 ha with rfl | ha
      · exact ⟨_, hnil⟩
      · exact h.sub.allocated a ha
  exact hlen

/-! ## Writes -/

/-- `s'` is `s` with the cell at `a` set to `v`. -/
structure Wrote (s s' : RBTree) (a : Ptr) (v : RBNode) : Prop where
  here : s'.heap.cell a = some v
  elsewhere : ∀ b, b ≠ a → s'.heap.cell b = s.heap.cell b
  root : s'.root = s.root

variable {a : Ptr} {v : RBNode}

theorem exists_update (f : RBNode → RBNode)
    (h : s.heap.cell a = some v) : ∃ s', s.update a f = some s' ∧ Wrote s s' a (f v) := by
  refine ⟨{ s with heap := s.heap.adjust a f }, ?_, ?_⟩
  · simp [update, modify_eq h]
  · exact ⟨adjust_self h, fun b hb => adjust_of_ne hb, rfl⟩

theorem Sub.of_wrote (h : Sub s.heap.cell parent t) (hw : Wrote s s' a v) (ha : a ∉ addrs t) :
    Sub s'.heap.cell parent t :=
  h.congr fun b hb => hw.elsewhere b (ne_of_mem_of_not_mem hb ha)

theorem Around.of_wrote (h : Around s.heap.cell path p) (hw : Wrote s s' a v)
    (ha : a ∉ pathAddrs path) :
    Around s'.heap.cell path p :=
  h.congr fun b hb => hw.elsewhere b (ne_of_mem_of_not_mem hb ha)

theorem parentOf_setColor {b : Ptr} (h : s.setColor a c = some s') :
    s'.parentOf b = s.parentOf b := by
  simp only [setColor, update, Heap.modify, Option.map_map, Option.map_eq_some_iff] at h
  rcases h with ⟨v, hv, rfl⟩
  by_cases hb : b = a
  · subst hb
    simp [parentOf, Heap.adjust_self hv, hv]
  · simp [parentOf, Heap.adjust_of_ne hb]

theorem Rep.setColor
    (h : Rep s (plug path (sided d x k ⟨a, c⟩ y))) (c' : Color) :
    ∃ s', s.setColor a c' = some s' ∧ Rep s' (plug path (sided d x k ⟨a, c'⟩ y)) := by
  rcases exists_update (fun n => { n with color := c' }) h.cell_eq with ⟨s', hs', hw⟩
  simp only [sidedNode_with_color] at hw
  have hnodup : (a :: (addrs x ++ addrs y) ++ pathAddrs path).Nodup :=
    (addrs_sided.append_right _).nodup_iff.1 h.nodup_addrs
  rw [cons_append, nodup_cons] at hnodup
  have helse : ∀ b ∈ addrs x ++ addrs y ++ pathAddrs path, s'.heap.cell b = s.heap.cell b := by
    intro b hb
    apply hw.elsewhere b
    rintro rfl
    exact hnodup.1 hb
  rcases sub_sided.1 h.subtree with ⟨hne, -, hx, hy⟩
  refine ⟨s', hs', Rep.mk_plug ?_ ?_ ?_ ?_ ?_⟩
  · have haround := h.around
    rw [ptr_sided] at haround ⊢
    exact haround.congr fun b hb => helse b (mem_append_right _ hb)
  · refine sub_sided.2 ⟨hne, hw.here, hx.congr ?_, hy.congr ?_⟩
    · exact fun b hb => helse b (by simp [hb])
    · exact fun b hb => helse b (by simp [hb])
  · rw [hw.root, h.root_plug, ptr_sided, ptr_sided]
  · exact (addrs_sided.append_right _).nodup_iff.2 (nodup_cons.2 hnodup)
  · rw [hw.elsewhere NIL (Ne.symm hne)]
    exact h.sentinel

theorem Rep.setColor_black (h : Rep s (plug path t)) :
    ∃ s', s.setColor (ptr t) .black = some s' ∧ Rep s' (plug path (blacken t)) := by
  by_cases ht : t = null
  · subst ht
    rcases h.sentinel with ⟨parent, hnil⟩
    rcases exists_update (fun n => { n with color := .black }) hnil with ⟨s', hs', hw⟩
    have hcell : s'.heap.cell = s.heap.cell := by
      funext b
      by_cases hb : b = NIL
      · rw [hb, hw.here, hnil]
        rfl
      · exact hw.elsewhere b hb
    refine ⟨s', hs', ⟨?_, ?_, h.nodup, ?_⟩⟩
    · rw [hcell]
      exact h.sub
    · rw [hw.root]
      exact h.root
    · rw [hcell]
      exact h.sentinel
  · rcases exists_sided .left ht with ⟨x, k, ⟨a, c⟩, y, rfl⟩
    exact h.setColor .black

theorem exists_redirect {u : Ptr} (v : Ptr)
    (haround : Around s.heap.cell (f :: path) u) (hnodup : (pathAddrs (f :: path)).Nodup) :
    ∃ s', s.setChild f.side f.info.addr v = some s' ∧ Around s'.heap.cell (f :: path) v ∧
      s'.root = s.root ∧ ∀ a, a ∉ pathAddrs (f :: path) → s'.heap.cell a = s.heap.cell a := by
  rcases haround with ⟨hne, hcell, hsib, hrest⟩
  simp only [pathAddrs, nodup_cons, mem_append, not_or] at hnodup
  rcases exists_update (fun n => n.setChild f.side v) hcell with ⟨s', hs', hw⟩
  rw [setChild_sidedNode] at hw
  refine ⟨s', hs', ⟨hne, hw.here, ?_, ?_⟩, hw.root, ?_⟩
  · exact hsib.of_wrote hw hnodup.1.1
  · exact hrest.of_wrote hw hnodup.1.2
  · intro b hb
    apply hw.elsewhere b
    rintro rfl
    exact hb mem_cons_self

theorem replaceChild_spec {u : Ptr} (v : Ptr)
    (haround : Around s.heap.cell path u) (hroot : s.root = topPtr path u) (hu : u ≠ NIL)
    (hnotin : u ∉ pathAddrs path) (hnodup : (pathAddrs path).Nodup) :
    ∃ s', replaceChild s u v (holeParent path) = some s' ∧ Around s'.heap.cell path v ∧
      s'.root = topPtr path v ∧ ∀ a, a ∉ pathAddrs path → s'.heap.cell a = s.heap.cell a := by
  rcases path with _ | ⟨⟨d, k, ⟨a, c⟩, y⟩, path⟩
  · refine ⟨{ s with root := v }, ?_, trivial, rfl, fun _ _ => rfl⟩
    simp [replaceChild, holeParent]
  · rcases exists_redirect v haround hnodup with ⟨s', hs', haround', hroot', helse⟩
    refine ⟨s', ?_, haround', hroot'.trans hroot, helse⟩
    rcases haround with ⟨hne, hcell, -, -⟩
    have huy : u ≠ ptr y := by
      rintro rfl
      apply hnotin
      have hy : y ≠ null := fun hnull => hu (by rw [hnull, ptr_null])
      simp [pathAddrs, ptr_mem_addrs hy]
    simp only [holeParent] at hne hcell ⊢
    rw [← hs']
    cases d with
    | left => simp [replaceChild, hne, childOf, hcell, sidedNode, RBNode.child]
    | right => simp [replaceChild, hne, childOf, hcell, sidedNode, RBNode.child, huy]

theorem exists_setParent (q : Ptr) (h : Sub s.heap.cell parent t) (hn : (addrs t).Nodup)
    (ht : t ≠ null) :
    ∃ s', s.setParent (ptr t) q = some s' ∧
      Sub s'.heap.cell q t ∧ (∀ a, a ∉ addrs t → s'.heap.cell a = s.heap.cell a) ∧
        s'.root = s.root := by
  rcases h.allocated (ptr t) (ptr_mem_addrs ht) with ⟨n, hcell⟩
  rcases exists_update (fun n => { n with parent := q }) hcell with ⟨s', hs', hw⟩
  refine ⟨s', hs', h.reparent hn ?_ ?_, ?_, hw.root⟩
  · rw [hw.here, hcell]
    exact fun _ => rfl
  · exact fun a _ hne => hw.elsewhere a hne
  · intro a ha
    apply hw.elsewhere a
    rintro rfl
    exact ha (ptr_mem_addrs ht)

theorem exists_moveBelow (q : Ptr) (h : Sub s.heap.cell parent t) (hn : (addrs t).Nodup) :
    ∃ s', setParentOfNode s (ptr t) q = some s' ∧
      Sub s'.heap.cell q t ∧ (∀ a, a ∉ addrs t → s'.heap.cell a = s.heap.cell a) ∧
        s'.root = s.root := by
  by_cases ht : t = null
  · subst ht
    exact ⟨s, by simp [setParentOfNode], trivial, fun _ _ => rfl, rfl⟩
  · rw [setParentOfNode, if_pos (mt h.ptr_eq_nil.1 ht)]
    exact exists_setParent q h hn ht

/-! ## Rotation -/

variable {A B C : Shape} {kx ky : Int} {tx ty : Tag}

/-- The distinct addresses of a node and of its child on the side away from `d`. -/
theorem Rep.nodup_rotate (h : Rep s (plug path (sided d A kx tx (sided d B ky ty C)))) :
    (tx.addr :: ty.addr :: (addrs A ++ (addrs B ++ (addrs C ++ pathAddrs path)))).Nodup := by
  have hperm : (addrs (sided d A kx tx (sided d B ky ty C))).Perm
      (tx.addr :: ty.addr :: (addrs A ++ (addrs B ++ addrs C))) := by
    calc
      Perm _ (tx.addr :: (addrs A ++ addrs (sided d B ky ty C))) := addrs_sided
      Perm _ (tx.addr :: (addrs A ++ ty.addr :: (addrs B ++ addrs C))) :=
        (addrs_sided.append_left _).cons _
      Perm _ _ := perm_middle.cons _
  have hnodup := (hperm.append_right (pathAddrs path)).nodup_iff.1 h.nodup_addrs
  simpa using hnodup

theorem nodup_rotated (h : (addrs (sided d A kx tx (sided d B ky ty C)) ++ pathAddrs path).Nodup) :
    (addrs (sided d (sided d A kx tx B) ky ty C) ++ pathAddrs path).Nodup := by
  have hperm : (addrs (sided d (sided d A kx tx B) ky ty C)).Perm
      (addrs (sided d A kx tx (sided d B ky ty C))) := by
    cases d with
    | left =>
      simp only [sided, addrs]
      grind
    | right =>
      simp only [sided, addrs]
      grind
  exact (hperm.append_right _).nodup_iff.2 h

theorem Rep.rotate (h : Rep s (plug path (sided d A kx tx (sided d B ky ty C)))) :
    ∃ s', rotate d s tx.addr = some s' ∧ Rep s' (plug path (sided d (sided d A kx tx B) ky ty C)) ∧
      s'.heap.cell NIL = s.heap.cell NIL := by
  have hnodup := h.nodup_rotate
  have hx := h.cell_eq
  rcases sub_sided.1 h.subtree with ⟨hxne, -, hA, hY⟩
  rcases sub_sided.1 hY with ⟨hyne, hy, hB, hC⟩
  have haround := h.around
  have hroot := h.root_plug
  rw [ptr_sided] at haround hroot
  have hnilB := hB.ne_nil
  have hnilP := haround.ne_nil
  simp only [nodup_cons, nodup_append, mem_cons, mem_append, not_or] at hnodup
  rcases hnodup
    with ⟨⟨hxy, hxA, hxB, hxC, hxP⟩, ⟨hyA, hyB, hyC, hyP⟩, -, ⟨hnB, ⟨-, hnP, hCP⟩, hBCP⟩, hABCP⟩
  -- `x->right = y->left`, and the middle subtree moves below `x`
  rcases exists_update (fun n => n.setChild d.other (ptr B)) hx with ⟨s1, hs1, hw1⟩
  rw [setChild_other_sidedNode] at hw1
  rcases exists_moveBelow tx.addr (hB.of_wrote hw1 hxB) hnB with ⟨s2, hs2, hB2, helse2, hroot2⟩
  have hx2 : s2.heap.cell tx.addr = _ := (helse2 tx.addr hxB).trans hw1.here
  have hy2 : s2.heap.cell ty.addr = _ :=
    (helse2 ty.addr hyB).trans ((hw1.elsewhere ty.addr (Ne.symm hxy)).trans hy)
  -- `y` takes the place of `x`
  rcases exists_update (fun n => { n with parent := holeParent path }) hy2 with ⟨s3, hs3, hw3⟩
  rw [sidedNode_with_parent] at hw3
  have helse3 : ∀ a, a ≠ tx.addr → a ≠ ty.addr → a ∉ addrs B → s3.heap.cell a = s.heap.cell a := by
    intro a hax hay haB
    rw [hw3.elsewhere a hay, helse2 a haB, hw1.elsewhere a hax]
  have haround3 : Around s3.heap.cell path tx.addr :=
    haround.congr fun a ha => helse3 a (by grind) (by grind) (by grind)
  have hroot3 : s3.root = topPtr path tx.addr := by rw [hw3.root, hroot2, hw1.root, hroot]
  rcases replaceChild_spec ty.addr haround3 hroot3 hxne hxP hnP
    with ⟨s4, hs4, haround4, hroot4, helse4⟩
  have hy4 : s4.heap.cell ty.addr = _ := (helse4 ty.addr hyP).trans hw3.here
  -- `x` goes below `y`
  rcases exists_update (fun n => n.setChild d tx.addr) hy4 with ⟨s5, hs5, hw5⟩
  rw [setChild_sidedNode] at hw5
  have hx5 : s5.heap.cell tx.addr = _ :=
    (hw5.elsewhere tx.addr hxy).trans
      ((helse4 tx.addr hxP).trans ((hw3.elsewhere tx.addr hxy).trans hx2))
  rcases exists_update (fun n => { n with parent := ty.addr }) hx5 with ⟨s6, hs6, hw6⟩
  rw [sidedNode_with_parent] at hw6
  have hy6 : s6.heap.cell ty.addr = _ := (hw6.elsewhere ty.addr (Ne.symm hxy)).trans hw5.here
  have helse6 : ∀ a, a ≠ tx.addr → a ≠ ty.addr → a ∉ pathAddrs path →
    s6.heap.cell a = s3.heap.cell a := by
    intro a hax hay haP
    rw [hw6.elsewhere a hax, hw5.elsewhere a hay, helse4 a haP]
  have hrun : RbTree.rotate d s tx.addr = some s6 := by
    have hb : s.childOf d ty.addr = some (ptr B) := by simp [childOf, hy]
    have hp : s2.parentOf tx.addr = some (holeParent path) := by simp [parentOf, hx2]
    have hs1' : s.setChild d.other tx.addr (ptr B) = some s1 := hs1
    have hs3' : s2.setParent ty.addr (holeParent path) = some s3 := hs3
    have hs5' : s4.setChild d ty.addr tx.addr = some s5 := hs5
    simp only [RbTree.rotate, h.childOf_other_eq, ptr_sided, bind_eq_bind, bind_some,
      if_neg hyne, hb, hs1', hs2, hp, hs3', hs4, hs5']
    exact hs6
  have hsame : ∀ a, a ≠ tx.addr → a ≠ ty.addr → a ∉ addrs B → a ∉ pathAddrs path →
    s6.heap.cell a = s.heap.cell a :=
    fun a hax hay haB haP => (helse6 a hax hay haP).trans (helse3 a hax hay haB)
  have hnil : s6.heap.cell NIL = s.heap.cell NIL :=
    hsame NIL (Ne.symm hxne) (Ne.symm hyne) hnilB hnilP
  refine ⟨s6, hrun, Rep.mk_plug ?_ ?_ ?_ ?_ ?_, hnil⟩
  · rw [ptr_sided]
    exact (haround4.of_wrote hw5 hyP).of_wrote hw6 hxP
  · refine sub_sided.2 ⟨hyne, ?_, sub_sided.2 ⟨hxne, hw6.here, ?_, ?_⟩, ?_⟩
    · rwa [ptr_sided]
    · exact hA.congr fun a ha => hsame a (by grind) (by grind) (by grind) (by grind)
    · refine hB2.congr fun a ha => ?_
      rw [helse6 a (by grind) (by grind) (by grind), hw3.elsewhere a (by grind)]
    · exact hC.congr fun a ha => hsame a (by grind) (by grind) (by grind) (by grind)
  · rw [ptr_sided, hw6.root, hw5.root, hroot4]
  · exact nodup_rotated h.nodup_addrs
  · rw [hnil]
    exact h.sentinel

end SystemsLab.RbTree
