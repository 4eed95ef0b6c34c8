import SystemsLab.RbTree.Insert

/-!
# The repair after a deletion

The node `x` of the loop may be the sentinel; then its parent is what the last write to the
sentinel's `parent` field says.  Every lemma therefore carries the value of `x->parent` along, as
`parentOf (ptr t) = some (holeParent path)`.
-/

namespace SystemsLab.RbTree

open SearchTree RbTree.RBTree Option

variable {s s' : RBTree} {path : Path} {t y : Shape} {d : Side} {k : Int} {tag : Tag}

/-- The parent of a node is known from the tree, and that of the sentinel stays if the sentinel
does. -/
theorem Rep.parentOf_of_sentinel (hrep : Rep s' (plug path t))
    (hnil : s'.heap.cell NIL = s.heap.cell NIL)
    (hpar : s.parentOf (ptr t) = some (holeParent path)) :
    s'.parentOf (ptr t) = some (holeParent path) := by
  by_cases ht : t = null
  · subst ht
    rwa [parentOf, ptr_null, hnil]
  · exact hrep.parentOf_ptr ht

theorem Rep.sibling_eq (h : Rep s (plug (⟨d, k, tag, y⟩ :: path) t))
    (hpar : s.parentOf (ptr t) = some tag.addr) (hy : y ≠ null) :
    sibling d s (ptr t) = some (ptr y) := by
  have hp : Rep s (plug path (sided d t k tag y)) := h
  have hw : s.childOf d.other tag.addr = some (ptr y) := hp.childOf_other_eq
  have hne : ptr y ≠ NIL := mt h.around.2.2.1.ptr_eq_nil.1 hy
  simp [sibling, hpar, hw, hne]

theorem Rep.swap {x : Shape} (h : Rep s (plug (⟨d, k, tag, y⟩ :: path) x)) :
    Rep s (plug (⟨d.other, k, tag, x⟩ :: path) y) := by
  rwa [plug_swap] at h

theorem Rep.swap_back {x : Shape} (h : Rep s (plug (⟨d.other, k, tag, y⟩ :: path) x)) :
    Rep s (plug (⟨d, k, tag, x⟩ :: path) y) := by
  have hswap := h.swap
  rwa [Side.other_other] at hswap

theorem Rep.ptr_ne_root {f : Frame Int Tag} (h : Rep s (plug (f :: path) t)) : ptr t ≠ s.root := by
  have htop : ∀ (path : Path) (f : Frame Int Tag) (p : Ptr),
    topPtr (f :: path) p ∈ pathAddrs (f :: path) := by
    intro path
    induction path with
    | nil =>
      simp [topPtr, pathAddrs]
    | cons g path ih =>
      have hg := ih g f.info.addr
      simp only [pathAddrs, List.mem_cons, List.mem_append] at hg ⊢
      tauto
  have hmem := htop path f (ptr t)
  rw [← h.root_plug] at hmem
  intro heq
  rw [← heq] at hmem
  by_cases ht : t = null
  · subst ht
    exact h.around.ne_nil hmem
  · exact (List.nodup_append.1 h.nodup_addrs).2.2 _ (ptr_mem_addrs ht) _ hmem rfl

/-- The state of the loop of `deleteFixup`, with the keys of the whole tree. -/
structure Sinking (s : RBTree) (path : Path) (t : Shape) (n : Nat) (keys : List Int) : Prop where
  rep : Rep s (plug path t)
  sunk : Sunk path t n
  parent : s.parentOf (ptr t) = some (holeParent path)
  keys_eq : (plug path t).keys = keys

section Cases

variable {near far : Shape} {kp kw : Int} {p w : Ptr} {c : Color} {n : Nat} {keys : List Int}

/-- Case 1 leaves a black sibling. -/
theorem deleteFixupRed_spec (h : Sinking s (⟨d, kp, ⟨p, c⟩, y⟩ :: path) t n keys) :
    ∃ s' c' path' near kw w far, deleteFixupRed d s (ptr t) = some s' ∧
      Sinking s' (⟨d, kp, ⟨p, c'⟩, sided d near kw ⟨w, .black⟩ far⟩ :: path') t n keys ∧
      (c' = .red ∨ path' = path) := by
  have hsib : sibling d s (ptr t) = some (ptr y) := h.rep.sibling_eq h.parent h.sunk.sibling_ne_null
  have hcolor : s.colorOf (ptr y) = some (rootColor y) := h.rep.swap.colorOf_eq
  rcases exists_sided d h.sunk.sibling_ne_null with ⟨near, kw, ⟨w, cw⟩, far, hy⟩
  subst hy
  rw [ptr_sided] at hsib hcolor
  rw [rootColor_sided] at hcolor
  cases cw with
  | black =>
    exact ⟨s, c, path, near, kw, w, far, by simp [deleteFixupRed, hsib, hcolor], h, .inr rfl⟩
  | red =>
    -- the parent is black, and the near child of the old sibling becomes the new one
    rcases h.sunk.redSibling with ⟨rfl, hs'⟩
    rcases h.rep.swap.setColor .black with ⟨s1, hs1, hrep1⟩
    have hp : Rep s1 (plug path (sided d t kp ⟨p, .black⟩ (sided d near kw ⟨w, .black⟩ far))) :=
      hrep1.swap_back
    have hpar1 : s1.parentOf (ptr t) = some p := (parentOf_setColor hs1).trans h.parent
    rcases hp.setColor .red with ⟨s2, hs2, hrep2⟩
    rcases hrep2.rotate with ⟨s3, hs3, hrep3, hnil⟩
    have hrep : Rep s3 (plug (⟨d, kp, ⟨p, .red⟩, near⟩ :: ⟨d, kw, ⟨w, .black⟩, far⟩ :: path) t) :=
      hrep3
    -- the deficit is on the other side of it, so it is not empty, and its parent is red now
    have hblack : rootColor near = .black := (pathOk_red.1 hs'.around).2.1
    rcases exists_sided d hs'.sibling_ne_null with ⟨x1, k1, ⟨a1, c1⟩, y1, rfl⟩
    rw [rootColor_sided] at hblack
    cases hblack
    refine ⟨s3, .red, _, x1, k1, a1, y1, ?_, ⟨hrep, hs', ?_, ?_⟩, .inl rfl⟩
    · simp only [deleteFixupRed, hsib, hcolor, hs1, hpar1, hs2, bind_eq_bind, bind_some]
      exact hs3
    · exact hrep.parentOf_of_sentinel hnil ((parentOf_setColor hs2).trans hpar1)
    · rw [← h.keys_eq]
      exact keys_plug_congr path (keys_rotate ..)

variable (h : Sinking s (⟨d, kp, ⟨p, c⟩, sided d near kw ⟨w, .black⟩ far⟩ :: path) t n keys)

include h

theorem Sinking.sibling_eq : sibling d s (ptr t) = some w := by
  simpa using h.rep.sibling_eq h.parent (by simp)

/-- Case 2 moves the deficit to the parent. -/
theorem moveUp_spec (ht : rootColor t = .black) (hnear : rootColor near = .black)
    (hfar : rootColor far = .black) :
    ∃ s' m, s.setColor w .red = some s' ∧ s'.parentOf (ptr t) = some p ∧
      Sinking s' path (sided d t kp ⟨p, c⟩ (sided d near kw ⟨w, .red⟩ far)) m keys := by
  rcases h.rep.swap.setColor .red with ⟨s', hs', hrep⟩
  have hrep' : Rep s' (plug path (sided d t kp ⟨p, c⟩ (sided d near kw ⟨w, .red⟩ far))) :=
    hrep.swap_back
  rcases h.sunk.moveUp ht hnear hfar with ⟨m, hm⟩
  refine ⟨s', m, hs', (parentOf_setColor hs').trans h.parent, hrep', hm,
    hrep'.parentOf_ptr (by simp), ?_⟩
  rw [← h.keys_eq]
  exact keys_plug_congr path (keys_sided_congr d kp _ _ rfl (keys_sided_congr d kw _ _ rfl rfl))

/-- Case 3 leaves a red far child below a black sibling. -/
theorem deleteFixupNear_spec (hred : rootColor near = .red ∨ rootColor far = .red) :
    ∃ s' near' kw' w' far', deleteFixupNear d s (ptr t) = some s' ∧
      Sinking s' (⟨d, kp, ⟨p, c⟩, sided d near' kw' ⟨w', .black⟩ far'⟩ :: path) t n keys ∧
        rootColor far' = .red := by
  have hsib := h.sibling_eq
  have hfarOf : s.childOf d.other w = some (ptr far) := h.rep.swap.childOf_other_eq
  have hw : Rep s (plug (⟨d, kw, ⟨w, .black⟩, far⟩ :: ⟨d.other, kp, ⟨p, c⟩, t⟩ :: path) near) :=
    h.rep.swap
  have hcolor : s.colorOf (ptr far) = some (rootColor far) := hw.swap.colorOf_eq
  cases hfar : rootColor far with
  | red => exact ⟨s, near, kw, w, far, by simp [deleteFixupNear, hsib, hfarOf, hcolor, hfar], h,
    hfar⟩
  | black =>
    have hnear : rootColor near = .red := by
      rcases hred with hred | hred
      · exact hred
      · rw [hfar] at hred
        cases hred
    rcases exists_sided d (ne_null_of_red hnear) with ⟨x1, k1, ⟨a1, c1⟩, y1, rfl⟩
    rw [rootColor_sided] at hnear
    cases hnear
    have hnearOf : s.childOf d w = some a1 := by simpa using h.rep.swap.childOf_eq
    rcases hw.setColor .black with ⟨s1, hs1, hrep1⟩
    have hw1 : Rep s1 (plug (⟨d.other, kp, ⟨p, c⟩, t⟩ :: path)
      (sided d (sided d x1 k1 ⟨a1, .black⟩ y1) kw ⟨w, .black⟩ far)) := hrep1
    rcases hw1.setColor .red with ⟨s2, hs2, hrep2⟩
    rw [← sided_other d, ← sided_other d] at hrep2
    rcases hrep2.rotate with ⟨s3, hs3, hrep3, hnil⟩
    rw [sided_other, sided_other] at hrep3
    refine ⟨s3, x1, k1, a1, sided d y1 kw ⟨w, .red⟩ far, ?_,
      ⟨hrep3.swap_back, h.sunk.turn hfar, ?_, ?_⟩,
      rootColor_sided ..⟩
    · simp only [deleteFixupNear, hsib, hfarOf, hcolor, hfar, hnearOf, hs1, hs2,
        bind_eq_bind, bind_some]
      exact hs3
    · refine hrep3.swap_back.parentOf_of_sentinel hnil ?_
      rw [parentOf_setColor hs2, parentOf_setColor hs1]
      exact h.parent
    · rw [← h.keys_eq]
      exact keys_plug_congr path (keys_sided_congr d kp _ _ rfl (keys_rotate ..).symm)

/-- Case 4 ends at the root of a valid tree. -/
theorem deleteFixupFar_spec (ht : rootColor t = .black) (hfar : rootColor far = .red) :
    ∃ s' T m, deleteFixupFar d s (ptr t) = some (s', ptr T) ∧ Sinking s' [] T m keys := by
  have hsib := h.sibling_eq
  have hp : Rep s (plug path (sided d t kp ⟨p, c⟩ (sided d near kw ⟨w, .black⟩ far))) := h.rep
  have hpcolor : s.colorOf p = some c := by simpa using hp.colorOf_eq
  rcases h.rep.swap.setColor c with ⟨s1, hs1, hrep1⟩
  -- the tree is seen from the sibling, from the parent and from the far child in turn
  have hp1 : Rep s1 (plug path (sided d t kp ⟨p, c⟩ (sided d near kw ⟨w, c⟩ far))) :=
    hrep1.swap_back
  rcases hp1.setColor .black with ⟨s2, hs2, hrep2⟩
  have hframe2 : Rep s2 (plug (⟨d, kp, ⟨p, .black⟩, sided d near kw ⟨w, c⟩ far⟩ :: path) t) := hrep2
  have hw2 : Rep s2 (plug (⟨d, kw, ⟨w, c⟩, far⟩ :: ⟨d.other, kp, ⟨p, .black⟩, t⟩ :: path) near) :=
    hframe2.swap
  have hfarOf : s2.childOf d.other w = some (ptr far) := hframe2.swap.childOf_other_eq
  rcases hw2.swap.setColor_black with ⟨s3, hs3, hrep3⟩
  have hw3 : Rep s3
    (plug (⟨d.other, kp, ⟨p, .black⟩, t⟩ :: path) (sided d near kw ⟨w, c⟩ (blacken far))) :=
    hrep3.swap_back
  have hp3 : Rep s3 (plug path (sided d t kp ⟨p, .black⟩ (sided d near kw ⟨w, c⟩ (blacken far)))) :=
    hw3.swap_back
  rcases hp3.rotate with ⟨s4, hs4, hrep4, -⟩
  rcases h.sunk.lift ht hfar with ⟨m, hfits⟩
  rcases hfits.plug with ⟨m, hvalid⟩
  have hroot : Rep s4
    (plug [] (plug path (sided d (sided d t kp ⟨p, .black⟩ near) kw ⟨w, c⟩ (blacken far)))) := hrep4
  refine ⟨s4, _, m, ?_, hroot, ⟨trivial, .inl ⟨hvalid.color trivial, hvalid.tree⟩⟩,
    hroot.parentOf_ptr (plug_ne_null path (by simp)), ?_⟩
  · have hpar : s.parentOf (ptr t) = some p := h.parent
    simp [deleteFixupFar, hsib, hpar, hpcolor, hs1, hs2, hfarOf, hs3, hs4, hrep4.root]
  · rw [← h.keys_eq]
    simp only [plug_cons, plug_nil, Frame.fill]
    apply keys_plug_congr
    cases d <;> simp [sided]

end Cases

/-! ## The loop -/

variable {n : Nat} {keys : List Int}

/-- One pass of the loop: the deficit moves up, or ends at a red node or at the root. -/
theorem deleteFixupStep_spec {f : Frame Int Tag} (h : Sinking s (f :: path) t n keys)
    (ht : rootColor t = .black) :
    ∃ s' path' t' m, deleteFixupStep s (ptr t) = some (s', ptr t') ∧ Sinking s' path' t' m keys ∧
      (rootColor t' = .red ∨ path'.length < (f :: path).length) := by
  have hside : sideOf s (ptr t) f.info.addr = some f.side :=
    h.rep.sideOf_eq (h.rep.ptr_ne_sibling (.inr h.sunk.sibling_ne_null))
  rcases f with ⟨d, kp, ⟨p, c⟩, y⟩
  have hpar : s.parentOf (ptr t) = some p := h.parent
  rcases deleteFixupRed_spec h with ⟨s1, c', path', near, kw, w, far, hs1, h1, hlen⟩
  have hsib := h1.sibling_eq
  have hnearOf : s1.childOf d w = some (ptr near) := h1.rep.swap.childOf_eq
  have hfarOf : s1.childOf d.other w = some (ptr far) := h1.rep.swap.childOf_other_eq
  have hw : Rep s1 (plug (⟨d, kw, ⟨w, .black⟩, far⟩ :: ⟨d.other, kp, ⟨p, c'⟩, t⟩ :: path') near) :=
    h1.rep.swap
  have hnearColor : s1.colorOf (ptr near) = some (rootColor near) := hw.colorOf_eq
  have hfarColor : s1.colorOf (ptr far) = some (rootColor far) := hw.swap.colorOf_eq
  by_cases hboth : rootColor near = .black ∧ rootColor far = .black
  · rcases moveUp_spec h1 ht hboth.1 hboth.2 with ⟨s2, m, hs2, hpar2, h2⟩
    refine ⟨s2, path', _, m, ?_, h2, ?_⟩
    · simp [deleteFixupStep, hpar, hside, hs1, hsib, hnearOf, hnearColor, hfarOf, hfarColor,
        if_pos hboth, hs2, hpar2]
    · -- after case 1 the path is longer, but then the parent is red and the loop stops there
      rcases hlen with rfl | rfl
      · exact .inl (rootColor_sided ..)
      · exact .inr (Nat.lt_succ_self _)
  · have hred : rootColor near = .red ∨ rootColor far = .red := by
      cases hn : rootColor near <;> cases hf : rootColor far <;> simp_all
    rcases deleteFixupNear_spec h1 hred with ⟨s2, near', kw', w', far', hs2, h2, hfar⟩
    rcases deleteFixupFar_spec h2 ht hfar with ⟨s3, T, m, hs3, h3⟩
    refine ⟨s3, [], T, m, ?_, h3, .inr (by simp)⟩
    simp [deleteFixupStep, hpar, hside, hs1, hsib, hnearOf, hnearColor, hfarOf, hfarColor,
      if_neg hboth, hs2, hs3]

/-- The loop ends, at a place where painting the node black makes the tree valid. -/
theorem deleteFixupLoop_spec (fuel : Nat) (hpos : 0 < fuel)
    (hfuel : rootColor t = .red ∨ path.length < fuel) (h : Sinking s path t n keys) :
    ∃ s' path' t', deleteFixupLoop fuel s (ptr t) = some (s', ptr t') ∧ Rep s' (plug path' t') ∧
      Valid (plug path' (blacken t')) ∧ (plug path' t').keys = keys := by
  -- the path becomes shorter in every pass, unless the pass ends at a red node
  induction fuel generalizing s path t n with
  | zero => omega
  | succ fuel ih =>
    have hcolor := h.rep.colorOf_eq
    by_cases hred : rootColor t = .red
    · refine ⟨s, path, t, ?_, h.rep, (h.sunk.fits_of_red hred).plug, h.keys_eq⟩
      simp [deleteFixupLoop, hcolor, hred]
    · have hblack := black_of_ne_red hred
      rcases path with _ | ⟨f, path⟩
      · refine ⟨s, [], t, ?_, h.rep, h.sunk.valid_blacken, h.keys_eq⟩
        have hcond : ¬ (ptr t ≠ s.root ∧ rootColor t = .black) := fun hc => hc.1 h.rep.root.symm
        simp [deleteFixupLoop, hcolor, if_neg hcond]
      · rcases deleteFixupStep_spec h hblack with ⟨s1, path1, t1, m, hs1, h1, hlen⟩
        have hlength : (f :: path).length < fuel + 1 := by tauto
        rw [List.length_cons] at hlength hlen
        have hnext : rootColor t1 = .red ∨ path1.length < fuel := hlen.imp id fun hlt => by omega
        rcases ih (by omega) hnext h1 with ⟨s', path', t', hs', hrest⟩
        refine ⟨s', path', t', ?_, hrest⟩
        have hcond : ptr t ≠ s.root ∧ rootColor t = .black := ⟨h.rep.ptr_ne_root, hblack⟩
        simp only [deleteFixupLoop, hcolor, if_pos hcond, hs1, bind_eq_bind, bind_some]
        exact hs'

/-- The repair restores validity and keeps the keys. -/
theorem deleteFixup_spec (h : Sinking s path t n keys) :
    ∃ s' T, deleteFixup s (ptr t) = some s' ∧ Rep s' T ∧ Valid T ∧ T.keys = keys := by
  have hfuel : path.length < s.heap.brk :=
    (length_le_length_addrs path t).trans_lt h.rep.size_lt_brk
  rcases deleteFixupLoop_spec s.heap.brk (by omega) (.inr hfuel) h with
    ⟨s1, path1, t1, hs1, hrep1, hvalid, hkeys⟩
  rcases hrep1.setColor_black with ⟨s', hs', hrep'⟩
  refine ⟨s', _, ?_, hrep', hvalid, ?_⟩
  · simp only [deleteFixup, hs1]
    exact hs'
  · rw [← hkeys]
    exact keys_plug_congr path1 (keys_blacken t1)

end SystemsLab.RbTree
