import SystemsLab.RbTree.DeleteFixup

/-!
# Search and deletion
-/

namespace SystemsLab.RbTree

open SearchTree RbTree.RBTree List Option

variable {s : RBTree} {path : Path} {t : Shape} {d : Side}

theorem locate_spec (key : Int) (fuel : Nat) (hfuel : t.realHeight < fuel) (h : Rep s (plug path t))
    (ho : (plug path t).Ordered) : (key ∉ t.keys ∧ locate key fuel s (ptr t) = some NIL) ∨
      ∃ path' left tag right, plug path' (node left key tag right) = plug path t ∧ key ∈ t.keys ∧
        locate key fuel s (ptr t) = some tag.addr := by
  induction t generalizing fuel path with
  | null =>
    cases fuel with
    | zero => omega
    | succ fuel => exact .inl ⟨by simp, by simp [locate]⟩
  | node left k tag right ihl ihr =>
    cases fuel with
    | zero => omega
    | succ fuel =>
      rw [realHeight_node] at hfuel
      have hl : Rep s (plug path (sided .left left k tag right)) := h
      have hr : Rep s (plug path (sided .right right k tag left)) := h
      have hne : tag.addr ≠ NIL := hl.addr_ne_nil
      have hon := ho.of_plug
      have hleft : Rep s (plug (⟨.left, k, tag, right⟩ :: path) left) := h
      have hright : Rep s (plug (⟨.right, k, tag, left⟩ :: path) right) := h
      simp only [locate, ptr_node, if_neg hne, hl.keyOf_eq, bind_eq_bind, bind_some]
      rcases lt_trichotomy key k with hlt | rfl | hgt
      · rw [if_neg hlt.ne, if_pos hlt, hl.childOf_eq, hon.mem_left_of_lt hlt]
        exact ihl fuel (by omega) hleft ho
      · exact .inr ⟨path, left, tag, right, rfl, by simp, by simp⟩
      · rw [if_neg hgt.ne', if_neg hgt.not_gt, hr.childOf_eq, hon.mem_right_of_lt hgt]
        exact ihr fuel (by omega) hright ho

theorem treeMinimum_spec (fuel : Nat) (hfuel : t.realHeight ≤ fuel) (h : Rep s (plug path t))
    (ht : t ≠ null) :
    ∃ path' ky tag ry, plug path' (node null ky tag ry) = t ∧ keysBefore path' = [] ∧
      treeMinimum fuel s (ptr t) = some tag.addr := by
  induction t generalizing fuel path with
  | null => exact absurd rfl ht
  | node left k tag right ihl _ =>
    cases fuel with
    | zero => simp at hfuel
    | succ fuel =>
      rw [realHeight_node] at hfuel
      have hl : Rep s (plug path (sided .left left k tag right)) := h
      have hleft : Rep s (plug (⟨.left, k, tag, right⟩ :: path) left) := h
      simp only [treeMinimum, ptr_node, hl.childOf_eq, bind_eq_bind, bind_some]
      rcases eq_or_ne left null with rfl | hnull
      · exact ⟨[], k, tag, right, rfl, rfl, by simp⟩
      · rw [if_neg (mt hleft.ptr_eq_nil.1 hnull)]
        rcases ihl fuel (by omega) hleft hnull with ⟨path', ky, tagY, ry, hplug, hbefore, hmin⟩
        refine ⟨path' ++ [⟨.left, k, tag, right⟩], ky, tagY, ry, ?_, ?_, hmin⟩
        · rw [plug_append, hplug]
          rfl
        · rw [keysBefore_append, hbefore]
          rfl

/-! ## Transplanting -/

theorem exists_transplant {u v : Ptr} {un vn : RBNode} (haround : Around s.heap.cell path u)
    (hroot : s.root = topPtr path u) (hu : u ≠ NIL) (hunot : u ∉ pathAddrs path)
    (hvnot : v ∉ pathAddrs path) (hnodup : (pathAddrs path).Nodup)
    (hun : s.heap.cell u = some un) (hparent : un.parent = holeParent path)
    (hvn : s.heap.cell v = some vn) :
    ∃ s', transplant s u v = some s' ∧ Around s'.heap.cell path v ∧ s'.root = topPtr path v ∧
      s'.heap.cell v = some { vn with parent := holeParent path } ∧
      ∀ a, a ∉ pathAddrs path → a ≠ v → s'.heap.cell a = s.heap.cell a := by
  rcases replaceChild_spec v haround hroot hu hunot hnodup with ⟨s1, hs1, haround1, hroot1, helse1⟩
  have hvn1 : s1.heap.cell v = some vn := (helse1 v hvnot).trans hvn
  have hp : s.parentOf u = some (holeParent path) := by simp [parentOf, hun, hparent]
  have hp1 : s1.parentOf u = some (holeParent path) := by
    simp [parentOf, helse1 u hunot, hun, hparent]
  rcases exists_update (fun n => { n with parent := holeParent path }) hvn1 with ⟨s2, hs2, hw2⟩
  refine ⟨s2, ?_, ?_, hw2.root.trans hroot1, hw2.here, ?_⟩
  · simp only [transplant, hp, hs1, hp1, bind_eq_bind, bind_some]
    exact hs2
  · exact haround1.of_wrote hw2 hvnot
  · intro a ha hav
    rw [hw2.elsewhere a hav, helse1 a ha]

/-- A node with an empty subtree hands its place to the other subtree, even when that is empty too.
The cell of the node itself stays as it was. -/
theorem transplant_spec {k : Int} {z : Ptr} {c : Color} {r : Shape}
    (h : Rep s (plug path (sided d null k ⟨z, c⟩ r))) :
    ∃ s', transplant s z (ptr r) = some s' ∧ Rep s' (plug path r) ∧
      s'.parentOf (ptr r) = some (holeParent path) ∧ s'.heap.cell z = s.heap.cell z ∧
        z ∉ addrs (plug path r) := by
  have hnodup : (z :: (addrs r ++ pathAddrs path)).Nodup := by
    simpa [addrs] using (addrs_sided.append_right (pathAddrs path)).nodup_iff.1 h.nodup_addrs
  rcases sub_sided.1 h.subtree with ⟨hzne, hz, -, hr⟩
  have haround := h.around
  have hroot := h.root_plug
  rw [ptr_sided] at haround hroot
  have hnilP := haround.ne_nil
  rw [nodup_cons, mem_append, not_or] at hnodup
  rcases hnodup with ⟨⟨hzr, hzP⟩, hrest⟩
  rcases nodup_append.1 hrest with ⟨hnr, hnP, hdisj⟩
  have hvP : ptr r ∉ pathAddrs path := by
    rcases eq_or_ne r null with rfl | hnull
    · exact hnilP
    · exact fun hmem => hdisj _ (ptr_mem_addrs hnull) _ hmem rfl
  have hzv : z ≠ ptr r := by
    rcases eq_or_ne r null with rfl | hnull
    · exact hzne
    · rintro rfl
      exact hzr (ptr_mem_addrs hnull)
  rcases hr.ptr_allocated h.sentinel with ⟨vn, hvn⟩
  rcases exists_transplant haround hroot hzne hzP hvP hnP hz (sidedNode_parent ..) hvn with
    ⟨s', hs', haround', hroot', hv', helse⟩
  refine ⟨s', hs', Rep.mk_plug haround' ?_ hroot' hrest ?_, ?_, helse z hzP hzv, ?_⟩
  · apply hr.reparent hnr
    · intro _
      rw [hv', hvn]
      rfl
    · exact fun a ha hne => helse a (fun hP => hdisj a ha a hP rfl) hne
  · rcases h.sentinel with ⟨parent, hnil⟩
    rcases eq_or_ne r null with rfl | hnull
    · rw [ptr_null] at hv' hvn
      rw [hnil] at hvn
      cases hvn
      exact ⟨holeParent path, hv'⟩
    · refine ⟨parent, ?_⟩
      rw [helse NIL hnilP (Ne.symm (mt hr.ptr_eq_nil.1 hnull)), hnil]
  · simp [parentOf, hv']
  · intro hmem
    rcases mem_append.1 (addrs_plug.mem_iff.1 hmem) with hmem | hmem
    · exact hzr hmem
    · exact hzP hmem

/-! ## The successor -/

variable {pathY : Path} {l r ry : Shape} {k ky : Int} {z y : Ptr} {c cy : Color}

/-- The successor `y` has left its place and holds the rest `r` of the right subtree of `z`, while
`z` still holds its place and its left subtree. -/
structure Detached (s : RBTree) (path : Path) (l r : Shape) (k ky : Int) (z y : Ptr) (c : Color) :
    Prop where
  around : Around s.heap.cell path z
  root : s.root = topPtr path z
  zcell : ∃ zr, s.heap.cell z = some ⟨k, c, ptr l, zr, holeParent path⟩
  lsub : Sub s.heap.cell z l
  ycell : ∃ cy yp, s.heap.cell y = some ⟨ky, cy, NIL, ptr r, yp⟩
  rsub : Sub s.heap.cell y r
  nodup : (y :: z :: (addrs l ++ (addrs r ++ pathAddrs path))).Nodup
  ne_nil : y ≠ NIL ∧ z ≠ NIL
  sentinel : ∃ parent, s.heap.cell NIL = some (nilNode parent)

theorem takePlace_spec (h : Detached s path l r k ky z y c) (hl : l ≠ null) :
    ∃ s', takePlace s z y = some s' ∧ Rep s' (plug path (node l ky ⟨y, c⟩ r)) ∧
      s'.heap.cell NIL = s.heap.cell NIL ∧ z ∉ addrs (plug path (node l ky ⟨y, c⟩ r)) := by
  have hnodup := h.nodup
  simp only [nodup_cons, nodup_append, mem_cons, mem_append, not_or] at hnodup
  rcases hnodup with ⟨⟨hyz, hyl, hyr, hyP⟩, ⟨hzl, hzr, hzP⟩, hnl, ⟨hnr, hnP, hrP⟩, hlrP⟩
  rcases h.zcell with ⟨zr, hz⟩
  rcases h.ycell with ⟨cy, yp, hy⟩
  have hnilP := h.around.ne_nil
  have hnilL := h.lsub.ne_nil
  -- `transplant(tree, z, y)`
  rcases exists_transplant h.around h.root h.ne_nil.2 hzP hyP hnP hz rfl hy with
    ⟨s1, hs1, haround1, hroot1, hy1, helse1⟩
  have hz1 : s1.heap.cell z = _ := (helse1 z hzP (Ne.symm hyz)).trans hz
  -- the left subtree moves below `y`
  rcases exists_update (fun n => n.setChild .left (ptr l)) hy1 with ⟨s2, hs2, hw2⟩
  have hl1 : Sub s1.heap.cell z l := h.lsub.congr fun a ha => helse1 a (by grind) (by grind)
  rcases exists_setParent y (hl1.of_wrote hw2 hyl) hnl hl with ⟨s3, hs3, hl3, helse3, hroot3⟩
  have hy3 : s3.heap.cell y = _ := (helse3 y hyl).trans hw2.here
  have hz3 : s3.heap.cell z = _ := (helse3 z hzl).trans ((hw2.elsewhere z (Ne.symm hyz)).trans hz1)
  -- `y->color = z->color`
  rcases exists_update (fun n => { n with color := c }) hy3 with ⟨s4, hs4, hw4⟩
  have hcell : s4.heap.cell y = some ⟨ky, c, ptr l, ptr r, holeParent path⟩ := hw4.here
  have helse : ∀ a, a ≠ y → a ∉ addrs l → a ∉ pathAddrs path → s4.heap.cell a = s.heap.cell a := by
    intro a hay hal haP
    rw [hw4.elsewhere a hay, helse3 a hal, hw2.elsewhere a hay, helse1 a haP hay]
  have hnil : s4.heap.cell NIL = s.heap.cell NIL := helse NIL (Ne.symm h.ne_nil.1) hnilL hnilP
  refine ⟨s4, ?_, Rep.mk_plug ?_ ?_ ?_ ?_ ?_, hnil, ?_⟩
  · have hzl1 : s1.childOf .left z = some (ptr l) := by simp [childOf, hz1, RBNode.child]
    have hzc3 : s3.colorOf z = some c := by simp [colorOf, hz3]
    have hs2' : s1.setChild .left y (ptr l) = some s2 := hs2
    simp only [takePlace, hs1, hzl1, hs2', hs3, hzc3, bind_eq_bind, bind_some]
    exact hs4
  · refine haround1.congr fun a ha => ?_
    rw [hw4.elsewhere a (by grind), helse3 a (by grind), hw2.elsewhere a (by grind)]
  · exact ⟨h.ne_nil.1, hcell, hl3.of_wrote hw4 hyl,
      h.rsub.congr fun a ha => helse a (by grind) (by grind) (by grind)⟩
  · rw [hw4.root, hroot3, hw2.root, hroot1]
    rfl
  · have hsub := h.nodup.sublist (List.Sublist.cons_cons y (sublist_cons_self z _))
    simpa [addrs] using hsub
  · rw [hnil]
    exact h.sentinel
  · intro hmem
    have hmem' := addrs_plug.mem_iff.1 hmem
    simp only [addrs, mem_cons, mem_append] at hmem'
    grind

/-- The successor is the right child of `z` itself. -/
theorem detach_child_spec (h : Rep s (plug path (node l k ⟨z, c⟩ (node null ky ⟨y, cy⟩ ry)))) :
    ∃ s', detachSuccessor s z y (ptr ry) = some s' ∧ Detached s' path l ry k ky z y c ∧
      (ry = null → s'.parentOf NIL = some y) := by
  rcases h.subtree with ⟨hzne, hz, hl, hyne, hy, -, hry⟩
  have haround : Around s.heap.cell path z := h.around
  have hnodup : (y :: z :: (addrs l ++ (addrs ry ++ pathAddrs path))).Nodup := by
    have hperm : (addrs (node l k ⟨z, c⟩ (node null ky ⟨y, cy⟩ ry)) ++ pathAddrs path).Perm
        (y :: z :: (addrs l ++ (addrs ry ++ pathAddrs path))) := by
      simp only [addrs]
      grind
    exact hperm.nodup_iff.1 h.nodup_addrs
  have hfacts := hnodup
  simp only [nodup_cons, nodup_append, mem_cons, mem_append, not_or] at hfacts
  rcases hfacts with ⟨⟨hyz, hyl, hyr, hyP⟩, ⟨hzl, hzr, hzP⟩, hnl, ⟨hnr, hnP, hrP⟩, hlrP⟩
  have hyp : s.parentOf y = some z := by simp [parentOf, hy]
  rcases hry.ptr_allocated h.sentinel with ⟨xn, hxn⟩
  rcases exists_update (fun n => { n with parent := y }) hxn with ⟨s', hs', hw⟩
  -- the write goes to the sentinel or to the root of `ry`, so to none of the other nodes
  have helse : ∀ a, a ≠ NIL → a ∉ addrs ry → s'.heap.cell a = s.heap.cell a := by
    intro a hnil har
    apply hw.elsewhere a
    rintro rfl
    rcases eq_or_ne ry null with rfl | hnull
    · exact hnil rfl
    · exact har (ptr_mem_addrs hnull)
  refine ⟨s', ?_, ⟨?_, ?_, ⟨_, (helse z hzne hzr).trans hz⟩, ?_,
    ⟨cy, z, (helse y hyne hyr).trans hy⟩, ?_, hnodup, ⟨hyne, hzne⟩, ?_⟩, ?_⟩
  · simp only [detachSuccessor, hyp, bind_eq_bind, bind_some]
    exact hs'
  · have hnilP := haround.ne_nil
    exact haround.congr fun a ha => helse a (by grind) (by grind)
  · rw [hw.root, h.root_plug]
    rfl
  · have hnilL := hl.ne_nil
    exact hl.congr fun a ha => helse a (by grind) (by grind)
  · apply hry.reparent hnr
    · intro _
      rw [hw.here, hxn]
      rfl
    · exact fun a _ hne => hw.elsewhere a hne
  · rcases h.sentinel with ⟨parent, hnil⟩
    rcases eq_or_ne ry null with rfl | hnull
    · rw [ptr_null, hnil] at hxn
      cases hxn
      exact ⟨y, hw.here⟩
    · exact ⟨parent, (hw.elsewhere NIL (Ne.symm (mt hry.ptr_eq_nil.1 hnull))).trans hnil⟩
  · rintro rfl
    have hnil := hw.here
    rw [ptr_null] at hnil
    simp [parentOf, hnil]

/-- The successor lies deeper and is transplanted out of the right subtree of `z` first. -/
theorem detach_deep_spec {g : Frame Int Tag}
    (h : Rep s (plug path (node l k ⟨z, c⟩ (plug (g :: pathY) (node null ky ⟨y, cy⟩ ry))))) :
    ∃ s', detachSuccessor s z y (ptr ry) = some s' ∧
      Detached s' path l (plug (g :: pathY) ry) k ky z y c ∧
      (ry = null → s'.parentOf NIL = some g.info.addr) := by
  have hfull : ∀ t, plug path (node l k ⟨z, c⟩ (plug (g :: pathY) t)) =
      plug (g :: (pathY ++ ⟨.right, k, ⟨z, c⟩, l⟩ :: path)) t := by
    intro t
    rw [← cons_append, plug_append]
    rfl
  have hyrep : Rep s
    (plug (g :: (pathY ++ ⟨.right, k, ⟨z, c⟩, l⟩ :: path)) (sided .left null ky ⟨y, cy⟩ ry)) := by
    rwa [hfull] at h
  have hycell := hyrep.cell_eq
  have hyne : y ≠ NIL := hyrep.addr_ne_nil
  have hyp : s.parentOf y = some g.info.addr := hyrep.parentOf_eq
  -- the parent of `y` is a node of the right subtree, not `z`
  have hgz : g.info.addr ≠ z := by
    have hnodup := hyrep.nodup_addrs
    intro heq
    rw [nodup_append] at hnodup
    have hpath := hnodup.2.1
    rw [pathAddrs, nodup_cons, mem_append, not_or] at hpath
    apply hpath.1.2
    rw [heq]
    exact mem_pathAddrs_append pathY _ (by simp [pathAddrs])
  rcases transplant_spec hyrep with ⟨s1, hs1, hrep1, hpar1, hy1, hynot⟩
  rw [← hfull] at hrep1 hynot
  set r' := plug (g :: pathY) ry with hr'
  have hr'ne : r' ≠ null := plug_ne_null pathY (sided_ne_null g.side ry g.sibling g.key g.info)
  rcases hrep1.subtree with ⟨hzne, hz1, hl1, hr1⟩
  have haround1 : Around s1.heap.cell path z := hrep1.around
  have hnodup : (y :: z :: (addrs l ++ (addrs r' ++ pathAddrs path))).Nodup := by
    apply nodup_cons.2
    constructor
    · intro hmem
      apply hynot
      apply addrs_plug.mem_iff.2
      simpa [addrs] using hmem
    · simpa [addrs] using hrep1.nodup_addrs
  have hfacts := hnodup
  simp only [nodup_cons, nodup_append, mem_cons, mem_append, not_or] at hfacts
  rcases hfacts with ⟨⟨hyz, hyl, hyr, hyP⟩, ⟨hzl, hzr, hzP⟩, hnl, ⟨hnr, hnP, hrP⟩, hlrP⟩
  -- `y->right = z->right`, and that subtree moves below `y`
  rw [hycell] at hy1
  rcases exists_update (fun n => n.setChild .right (ptr r')) hy1 with ⟨s2, hs2, hw2⟩
  rcases exists_setParent y (hr1.of_wrote hw2 hyr) hnr hr'ne with ⟨s3, hs3, hr3, helse3, hroot3⟩
  have helse : ∀ a, a ≠ y → a ∉ addrs r' → s3.heap.cell a = s1.heap.cell a := by
    intro a hay har
    rw [helse3 a har, hw2.elsewhere a hay]
  have hnil : s3.heap.cell NIL = s1.heap.cell NIL := helse NIL (Ne.symm hyne) hr1.ne_nil
  have hy3 : s3.heap.cell y = some ⟨ky, cy, NIL, ptr r', g.info.addr⟩ := by
    rw [helse3 y hyr, hw2.here]
    rfl
  refine ⟨s3, ?_, ⟨?_, ?_, ⟨_, (helse z (Ne.symm hyz) hzr).trans hz1⟩, ?_,
    ⟨cy, _, hy3⟩, hr3, hnodup,
    ⟨hyne, hzne⟩, ?_⟩, ?_⟩
  · have hzr1 : s1.childOf .right z = some (ptr r') := by simp [childOf, hz1, RBNode.child]
    have hs2' : s1.setChild .right y (ptr r') = some s2 := hs2
    simp only [detachSuccessor, hyp, if_neg hgz, hs1, hzr1, hs2', bind_eq_bind, bind_some]
    exact hs3
  · exact haround1.congr fun a ha => helse a (by grind) (by grind)
  · rw [hroot3, hw2.root, hrep1.root_plug]
    rfl
  · exact hl1.congr fun a ha => helse a (by grind) (by grind)
  · rw [hnil]
    exact hrep1.sentinel
  · rintro rfl
    rwa [parentOf, hnil]

/-- The successor replaces `z`: what was the right subtree of the successor is now at the end of the
path below it. -/
theorem spliceSuccessor_spec
    (h : Rep s (plug path (node l k ⟨z, c⟩ (plug pathY (node null ky ⟨y, cy⟩ ry)))))
    (hl : l ≠ null) : ∃ s', spliceSuccessor s z y = some (s', ptr ry) ∧
      Rep s' (plug (pathY ++ ⟨.right, ky, ⟨y, c⟩, l⟩ :: path) ry) ∧
      s'.parentOf (ptr ry) = some (holeParent (pathY ++ ⟨.right, ky, ⟨y, c⟩, l⟩ :: path)) ∧
      z ∉ addrs (plug (pathY ++ ⟨.right, ky, ⟨y, c⟩, l⟩ :: path) ry) := by
  have hx : s.childOf .right y = some (ptr ry) := by
    have hyrep : Rep s
      (plug (pathY ++ ⟨.right, k, ⟨z, c⟩, l⟩ :: path) (sided .right ry ky ⟨y, cy⟩ null)) := by
      rwa [plug_append]
    exact hyrep.childOf_eq
  have hplug : plug (pathY ++ ⟨.right, ky, ⟨y, c⟩, l⟩ :: path) ry =
      plug path (node l ky ⟨y, c⟩ (plug pathY ry)) := by
    rw [plug_append]
    rfl
  have hdetach : ∃ s1, detachSuccessor s z y (ptr ry) = some s1 ∧
      Detached s1 path l (plug pathY ry) k ky z y c ∧
      (ry = null →
        s1.parentOf NIL = some (holeParent (pathY ++ ⟨.right, ky, ⟨y, c⟩, l⟩ :: path))) := by
    rcases pathY with _ | ⟨g, pathY⟩
    · exact detach_child_spec h
    · exact detach_deep_spec h
  rcases hdetach with ⟨s1, hs1, hd, hpar⟩
  rcases takePlace_spec hd hl with ⟨s2, hs2, hrep, hnil, hznot⟩
  rw [← hplug] at hrep hznot
  refine ⟨s2, ?_, hrep, ?_, hznot⟩
  · simp [spliceSuccessor, hx, hs1, hs2]
  · by_cases hnull : ry = null
    · have hpar' := hpar hnull
      subst hnull
      rwa [parentOf, ptr_null, hnil]
    · exact hrep.parentOf_ptr hnull

/-! ## One call -/

/-- The rules around a place do not depend on keys and addresses. -/
theorem pathOk_replace (pathY : Path) {k' : Int} {n : Nat}
    (h : PathOk (pathY ++ ⟨d, k, ⟨z, c⟩, l⟩ :: path) n) :
    PathOk (pathY ++ ⟨d, k', ⟨y, c⟩, l⟩ :: path) n := by
  induction pathY generalizing n with
  | nil => exact h
  | cons f pathY ih =>
    have hmust : MustBeBlack (pathY ++ ⟨d, k', ⟨y, c⟩, l⟩ :: path) ↔
        MustBeBlack (pathY ++ ⟨d, k, ⟨z, c⟩, l⟩ :: path) := by
      cases pathY <;> exact Iff.rfl
    rcases f with ⟨e, kf, ⟨a, cf⟩, y'⟩
    cases cf with
    | red =>
      rcases pathOk_red.1 h with ⟨hy, hcy, hfree, hrest⟩
      exact pathOk_red.2 ⟨hy, hcy, mt hmust.1 hfree, ih hrest⟩
    | black =>
      rcases pathOk_black.1 h with ⟨hy, hrest⟩
      exact pathOk_black.2 ⟨hy, ih hrest⟩

/-- When a node with an empty subtree leaves, nothing is wrong if it was red, and a black node is
missing if it was black. -/
theorem Fits.lose {x : Shape} {n : Nat} (h : Fits path (sided d null k ⟨z, c⟩ x) n) :
    (c = .red → Fits path x n) ∧ (c = .black → ∃ m, Sunk path x m) := by
  constructor
  · rintro rfl
    rcases redBlack_red.1 h.tree with ⟨-, hx, -, hcx⟩
    exact ⟨h.around, hx, fun _ => hcx⟩
  · rintro rfl
    rcases redBlack_black.1 h.tree with ⟨m, rfl, -, hx⟩
    refine ⟨m, h.around, ?_⟩
    cases hc : rootColor x with
    | red => exact .inr ⟨rfl, hx.blacken_of_red hc⟩
    | black => exact .inl ⟨rfl, hx⟩

theorem spliceOut_spec (h : Rep s (plug path (node l k ⟨z, c⟩ r)))
    (hv : Valid (plug path (node l k ⟨z, c⟩ r))) :
    ∃ s' path' x color, spliceOut s z = some (s', ptr x, color) ∧ Rep s' (plug path' x) ∧
      s'.parentOf (ptr x) = some (holeParent path') ∧ z ∉ addrs (plug path' x) ∧
      (plug path' x).keys = keysBefore path ++ (l.keys ++ r.keys) ++ keysAfter path ∧
      (color = .red → Valid (plug path' x)) ∧ (color = .black → ∃ m, Sunk path' x m) := by
  have hleft : Rep s (plug path (sided .left l k ⟨z, c⟩ r)) := h
  have hright : Rep s (plug path (sided .right r k ⟨z, c⟩ l)) := h
  have hzl : s.childOf .left z = some (ptr l) := hleft.childOf_eq
  have hzr : s.childOf .right z = some (ptr r) := hright.childOf_eq
  have hzc : s.colorOf z = some c := by simpa using hleft.colorOf_eq
  have hlnil : ptr l = NIL ↔ l = null := (sub_sided.1 hleft.subtree).2.2.1.ptr_eq_nil
  have hrnil : ptr r = NIL ↔ r = null := (sub_sided.1 hright.subtree).2.2.1.ptr_eq_nil
  rcases hv.fits with ⟨n, hfits⟩
  by_cases hl : l = null
  · subst hl
    rcases transplant_spec hleft with ⟨s', hs', hrep, hpar, -, hznot⟩
    have hlose := Fits.lose (d := .left) hfits
    refine ⟨s', path, r, c, ?_, hrep, hpar, hznot, by simp [keys_plug], ?_, hlose.2⟩
    · simp [spliceOut, hzl, hzr, hzc, hs']
    · exact fun hc => (hlose.1 hc).plug
  · rcases eq_or_ne r null with rfl | hr
    · rcases transplant_spec hright with ⟨s', hs', hrep, hpar, -, hznot⟩
      have hlose := Fits.lose (d := .right) hfits
      refine ⟨s', path, l, c, ?_, hrep, hpar, hznot, by simp [keys_plug], ?_, hlose.2⟩
      · simp [spliceOut, hzl, hzr, hzc, if_neg (mt hlnil.1 hl), hs']
      · exact fun hc => (hlose.1 hc).plug
    · have hrrep : Rep s (plug (⟨.right, k, ⟨z, c⟩, l⟩ :: path) r) := h
      have hfuel : r.realHeight ≤ s.heap.brk := by
        have hheight := hrrep.realHeight_lt_brk
        exact (realHeight_le_plug _ r).trans hheight.le
      rcases treeMinimum_spec s.heap.brk hfuel hrrep hr
        with ⟨pathY, ky, ⟨y, cy⟩, ry, rfl, hbefore, hmin⟩
      rcases spliceSuccessor_spec h hl with ⟨s', hs', hrep, hpar, hznot⟩
      -- the successor's colour is what the tree loses
      have hfitsY : ∃ m,
        Fits (pathY ++ ⟨.right, k, ⟨z, c⟩, l⟩ :: path) (sided .left null ky ⟨y, cy⟩ ry) m := by
        apply Valid.fits
        rwa [plug_append]
      rcases hfitsY with ⟨m, hfitsY⟩
      have hfitsY' : Fits (pathY ++ ⟨.right, ky, ⟨y, c⟩, l⟩ ::
        path) (sided .left null ky ⟨y, cy⟩ ry) m := by
        refine ⟨pathOk_replace pathY hfitsY.around, hfitsY.tree, ?_⟩
        have hcolor := hfitsY.color
        cases pathY <;> exact hcolor
      have hlose := hfitsY'.lose
      have hyc : s.colorOf y = some cy := by
        have hyrep : Rep s
          (plug (pathY ++ ⟨.right, k, ⟨z, c⟩, l⟩ :: path) (sided .left null ky ⟨y, cy⟩ ry)) := by
          rwa [plug_append]
        simpa using hyrep.colorOf_eq
      refine ⟨s', _, ry, cy, ?_, hrep, hpar, hznot, ?_, fun hc => (hlose.1 hc).plug, hlose.2⟩
      · simp [spliceOut, hzl, hzr, hzc, if_neg (mt hlnil.1 hl), if_neg (mt hrnil.1 hr),
          hmin, hyc, hs']
      · rw [plug_append, plug_cons, keys_plug path]
        simp [Frame.fill, sided, keys_plug pathY, hbefore]

/-- `delete` removes its key from a valid ordered tree and never fails; without the key in the tree
nothing changes. -/
theorem delete_spec {T : Shape} (h : Rep s T) (hv : Valid T) (ho : T.Ordered) (key : Int) :
    ∃ s' T', delete s key = some s' ∧ Rep s' T' ∧ Valid T' ∧ T'.Ordered ∧
      (∀ x, x ∈ T'.keys ↔ x ≠ key ∧ x ∈ T.keys) ∧ (key ∉ T.keys → s' = s) := by
  have hroot : Rep s (plug [] T) := h
  have hlocate := locate_spec key s.heap.brk h.realHeight_lt_brk hroot ho
  rw [← h.root] at hlocate
  rcases hlocate with ⟨hnot, hloc⟩ | ⟨path, l, ⟨z, c⟩, r, rfl, hmem, hloc⟩
  · refine ⟨s, T, ?_, h, hv, ho, ?_, fun _ => rfl⟩
    · simp [delete, hloc]
    · intro x
      constructor
      · intro hx
        exact ⟨fun heq => hnot (heq ▸ hx), hx⟩
      · exact And.right
  · rcases spliceOut_spec h hv
      with ⟨s1, path1, x, color, hs1, hrep1, hpar1, hznot, hkeys, hred, hblack⟩
    have hzne : z ≠ NIL := by
      have hnode : Rep s (plug path (sided .left l key ⟨z, c⟩ r)) := h
      exact hnode.addr_ne_nil
    -- `free(z)` touches neither the tree nor the sentinel
    set s2 : RBTree := { s1 with heap := s1.heap.free z } with hs2
    have hfree : ∀ a, a = NIL ∨ a ∈ addrs (plug path1 x) → s2.heap.cell a = s1.heap.cell a := by
      intro a ha
      apply Heap.free_of_ne
      rcases ha with rfl | ha
      · exact Ne.symm hzne
      · rintro rfl
        exact hznot ha
    have hrep2 : Rep s2 (plug path1 x) := hrep1.congr rfl hfree
    have hpar2 : s2.parentOf (ptr x) = some (holeParent path1) := by
      rw [parentOf, hfree (ptr x), ← parentOf, hpar1]
      by_cases hx : x = null
      · exact .inl (by rw [hx, ptr_null])
      · exact .inr (addrs_plug.mem_iff.2 (mem_append_left _ (ptr_mem_addrs hx)))
    have hend : ∃ s' T', (if color = .black then deleteFixup s2 (ptr x) else some s2) = some s' ∧
        Rep s' T' ∧ Valid T' ∧ T'.keys = (plug path1 x).keys := by
      cases color with
      | red => exact ⟨s2, plug path1 x, by simp, hrep2, hred rfl, rfl⟩
      | black =>
        rcases hblack rfl with ⟨m, hsunk⟩
        exact deleteFixup_spec ⟨hrep2, hsunk, hpar2, rfl⟩
    rcases hend with ⟨s', T', hs', hrep', hvalid', hkeys'⟩
    rw [hkeys] at hkeys'
    refine ⟨s', T', ?_, hrep', hvalid', ?_, ?_, fun hnot => absurd hmem hnot⟩
    · simp only [delete, hloc, if_neg hzne, hs1, bind_eq_bind, bind_some]
      exact hs'
    · rw [Ordered, hkeys']
      exact ho.remove
    · intro x'
      rw [hkeys']
      exact ho.mem_remove

end SystemsLab.RbTree
