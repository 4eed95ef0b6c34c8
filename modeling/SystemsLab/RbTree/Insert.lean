import SystemsLab.RbTree.Represent

/-!
# Insertion and its repair
-/

namespace SystemsLab.RbTree

open SearchTree RbTree.RBTree Option List

/-- The state of the loop of `insertFixup`, with the keys of the whole tree. -/
structure Rising (s : RBTree) (path : Path) (t : Shape) (n : Nat) (keys : List Int) : Prop where
  rep : Rep s (plug path t)
  risen : Risen path t n
  keys_eq : (plug path t).keys = keys

variable {s : RBTree} {path : Path} {t y u : Shape} {d e : Side} {kp kg : Int} {p g : Ptr} {n : Nat}
  {keys : List Int}

theorem Risen.ne_null (h : Risen path t n) : t ≠ null := ne_null_of_red h.color

variable {f : Frame Int Tag}

theorem Rep.grandparent_eq {c : Color} (h : Rep s (plug (f :: ⟨e, kg, ⟨g, c⟩, u⟩ :: path) t))
    (ht : t ≠ null) :
    grandparent s (ptr t) = some g := by
  have hp : Rep s (plug (⟨e, kg, ⟨g, c⟩, u⟩ :: path) (f.fill t)) := h
  have hg : Rep s (plug path (sided e (f.fill t) kg ⟨g, c⟩ u)) := h
  have hpp : s.parentOf f.info.addr = some g := hp.parentOf_eq
  have htp : s.parentOf (ptr t) = some f.info.addr := h.parentOf_ptr ht
  have hgne : g ≠ NIL := hg.addr_ne_nil
  simp [grandparent, htp, hpp, hgne]

/-- Case 2 is left with the red node on the outer side. -/
theorem insertFixupInner_spec (h : Rising s (⟨e, kp, ⟨p, .red⟩, y⟩ :: path) t n keys) (d : Side) :
    ∃ s' k a y' t', insertFixupInner d s (ptr t) = some (s', ptr t') ∧
      Rising s' (⟨d, k, ⟨a, .red⟩, y'⟩ :: path) t' n keys := by
  have hnull := h.risen.ne_null
  have htp : s.parentOf (ptr t) = some p := h.rep.parentOf_ptr hnull
  by_cases hed : e = d
  · subst hed
    have hrep : Rep s (plug path (sided e t kp ⟨p, .red⟩ y)) := h.rep
    have hinner : s.childOf e.other p = some (ptr y) := hrep.childOf_other_eq
    have hne : ptr t ≠ ptr y := h.rep.ptr_ne_sibling (.inl hnull)
    exact ⟨s, kp, p, y, t, by simp [insertFixupInner, htp, hinner, hne], h⟩
  · -- an inner child: rotating its parent makes the parent the outer grandchild
    cases Side.eq_other_of_ne hed
    rcases h with ⟨hrep, hr, hkeys⟩
    rcases exists_sided d hnull with ⟨x, k, ⟨a, c⟩, z, rfl⟩
    have hred : c = .red := by simpa using hr.color
    subst hred
    rw [plug_cons, Frame.fill, sided_other] at hrep hkeys
    rcases hrep.rotate with ⟨s', hrot, hrep', -⟩
    refine ⟨s', k, a, z, sided d y kp ⟨p, .red⟩ x, ?_, hrep', hr.turn, ?_⟩
    · have hinner : s.childOf d.other p = some a := by simpa using hrep.childOf_other_eq
      rw [ptr_sided] at htp
      simp [insertFixupInner, htp, hinner, hrot]
    · rw [← hkeys]
      exact keys_plug_congr path (keys_rotate ..)

/-- Case 3 leaves the red node below a black one. -/
theorem insertFixupOuter_spec (h : Rising s (⟨d, kp, ⟨p, .red⟩, y⟩ :: ⟨d, kg, ⟨g, .black⟩, u⟩ ::
    path) t n keys)
    (hu : rootColor u = .black) : ∃ s', insertFixupOuter d s (ptr t) = some (s', ptr t) ∧
      Rising s' (⟨d, kp, ⟨p, .black⟩, sided d y kg ⟨g, .red⟩ u⟩ :: path) t n keys := by
  have ht := h.risen.ne_null
  have htp : s.parentOf (ptr t) = some p := h.rep.parentOf_ptr ht
  have hp : Rep s (plug (⟨d, kg, ⟨g, .black⟩, u⟩ :: path) (sided d t kp ⟨p, .red⟩ y)) := h.rep
  rcases hp.setColor .black with ⟨s1, hs1, hrep1⟩
  have hgrand : grandparent s1 (ptr t) = some g := by
    have hrep : Rep s1 (plug (⟨d, kp, ⟨p, .black⟩, y⟩ :: ⟨d, kg, ⟨g, .black⟩, u⟩ :: path) t) :=
      hrep1
    exact hrep.grandparent_eq ht
  have hg : Rep s1 (plug path (sided d (sided d t kp ⟨p, .black⟩ y) kg ⟨g, .black⟩ u)) := hrep1
  rcases hg.setColor .red with ⟨s2, hs2, hrep2⟩
  -- seen from the uncle, the rotation goes away from `d`
  rw [← sided_other d, ← sided_other d] at hrep2
  rcases hrep2.rotate with ⟨s3, hs3, hrep3, -⟩
  rw [sided_other, sided_other] at hrep3
  refine ⟨s3, by simp [insertFixupOuter, htp, hs1, hgrand, hs2, hs3], hrep3, h.risen.lift hu, ?_⟩
  rw [← h.keys_eq]
  simp only [plug_cons, Frame.fill]
  apply keys_plug_congr
  cases d <;> simp [sided]

/-- Case 1 recolours the parent, the uncle and the grandparent. -/
theorem recolor_spec (h : Rising s (⟨d, kp, ⟨p, .red⟩, y⟩ :: ⟨e, kg, ⟨g, .black⟩, u⟩ ::
    path) t n keys)
    (hu : rootColor u = .red) :
    ∃ s1 s2 s3, s.setColor p .black = some s1 ∧ s1.setColor (ptr u) .black = some s2 ∧
      s2.setColor g .red = some s3 ∧
      Rising s3 path (sided e (sided d t kp ⟨p, .black⟩ y) kg ⟨g, .red⟩ (blacken u))
        (n + 1) keys := by
  have hp : Rep s (plug (⟨e, kg, ⟨g, .black⟩, u⟩ :: path) (sided d t kp ⟨p, .red⟩ y)) := h.rep
  rcases hp.setColor .black with ⟨s1, hs1, hrep1⟩
  rw [plug_swap] at hrep1
  rcases hrep1.setColor_black with ⟨s2, hs2, hrep2⟩
  rw [← plug_swap] at hrep2
  have hg : Rep s2 (plug path (sided e (sided d t kp ⟨p, .black⟩ y) kg ⟨g, .black⟩ (blacken u))) :=
    hrep2
  rcases hg.setColor .red with ⟨s3, hs3, hrep3⟩
  refine ⟨s1, s2, s3, hs1, hs2, hs3, hrep3, h.risen.recolor hu, ?_⟩
  rw [← h.keys_eq, plug_cons]
  apply keys_plug_congr
  apply keys_sided_congr
  · exact keys_sided_congr _ _ _ _ rfl rfl
  · exact keys_blacken u

/-- One pass of the loop of `insertFixup` brings the red node closer to the root. -/
theorem insertFixupStep_spec (h : Rising s (f :: path) t n keys) (hred : f.info.color = .red) :
    ∃ s' path' t' m, insertFixupStep s (ptr t) = some (s', ptr t') ∧ Rising s' path' t' m keys ∧
      path'.length < (f :: path).length := by
  rcases h.risen.grandparent hred with ⟨e, kg, g, u, rest, rfl⟩
  rcases f with ⟨d, kp, ⟨p, c⟩, y⟩
  cases hred
  have htp : s.parentOf (ptr t) = some p := h.rep.parentOf_ptr h.risen.ne_null
  have hgrand : grandparent s (ptr t) = some g := h.rep.grandparent_eq h.risen.ne_null
  have hp : Rep s (plug (⟨e, kg, ⟨g, .black⟩, u⟩ :: rest) (sided d t kp ⟨p, .red⟩ y)) := h.rep
  have hside : sideOf s p g = some e := by
    have hne := hp.ptr_ne_sibling (.inl (by simp))
    simpa using hp.sideOf_eq hne
  have huncle : s.childOf e.other g = some (ptr u) := by
    have hg : Rep s (plug rest (sided e (sided d t kp ⟨p, .red⟩ y) kg ⟨g, .black⟩ u)) := h.rep
    exact hg.childOf_other_eq
  have hcolor : s.colorOf (ptr u) = some (rootColor u) := by
    rw [plug_swap] at hp
    exact hp.colorOf_eq
  by_cases hu : rootColor u = .red
  · rcases recolor_spec h hu with ⟨s1, s2, s3, hs1, hs2, hs3, hrising⟩
    refine ⟨s3, rest, _, n + 1, ?_, hrising, ?_⟩
    · simp [insertFixupStep, htp, hgrand, hside, huncle, hcolor, hu, hs1, hs2, hs3]
    · simp only [length_cons]
      omega
  · rcases insertFixupInner_spec h e with ⟨s1, k, a, y', t', hs1, hrising1⟩
    rcases insertFixupOuter_spec hrising1 (black_of_ne_red hu) with ⟨s2, hs2, hrising2⟩
    refine ⟨s2, _, t', n, ?_, hrising2, ?_⟩
    · simp [insertFixupStep, htp, hgrand, hside, huncle, hcolor, hu, hs1, hs2]
    · simp only [length_cons]
      omega

theorem insertFixupLoop_spec (fuel : Nat) (hfuel : path.length < fuel)
    (h : Rising s path t n keys) :
    ∃ s' T, insertFixupLoop fuel s (ptr t) = some s' ∧ Rep s' T ∧ Valid (blacken T) ∧
      T.keys = keys := by
  induction fuel generalizing s path t n with
  | zero => omega
  | succ fuel ih =>
    have htp : s.parentOf (ptr t) = some (holeParent path) := h.rep.parentOf_ptr h.risen.ne_null
    rcases path with _ | ⟨f, path⟩
    · rcases h.rep.sentinel with ⟨parent, hnil⟩
      refine ⟨s, t, ?_, h.rep, h.risen.valid_blacken, h.keys_eq⟩
      simp [insertFixupLoop, htp, holeParent, colorOf, hnil, nilNode]
    · have hp : Rep s (plug path (f.fill t)) := h.rep
      have hcolor : s.colorOf f.info.addr = some f.info.color := by
        simpa [Frame.fill] using hp.colorOf_eq
      by_cases hred : f.info.color = .red
      · rcases insertFixupStep_spec h hred with ⟨s1, path1, t1, m, hs1, hrising, hlen⟩
        rcases ih (by simp only [length_cons] at hlen hfuel; omega) hrising with ⟨s', T, hs', hrest⟩
        refine ⟨s', T, ?_, hrest⟩
        simp only [insertFixupLoop, htp, holeParent, hcolor, hred, hs1, bind_eq_bind, bind_some]
        exact hs'
      · have hvalid : Valid (plug (f :: path) t) := (h.risen.fits hred).plug
        refine ⟨s, plug (f :: path) t, ?_, h.rep, ?_, h.keys_eq⟩
        · simp [insertFixupLoop, htp, holeParent, hcolor, hred]
        · rwa [blacken_of_black hvalid.rootColor_eq]

theorem length_le_length_addrs (path : Path) (t : Shape) :
    path.length ≤ (addrs (plug path t)).length := by
  have hlen : (addrs (plug path t)).length = (addrs t ++ pathAddrs path).length :=
    addrs_plug.length_eq
  have hpath : path.length ≤ (pathAddrs path).length := by
    clear hlen
    induction path with
    | nil => exact le_rfl
    | cons f path ih =>
      simp only [pathAddrs, length_cons, length_append]
      omega
  rw [length_append] at hlen
  omega

theorem insertFixup_spec (h : Rising s path t n keys) :
    ∃ s' T, insertFixup s (ptr t) = some s' ∧ Rep s' T ∧ Valid T ∧ T.keys = keys := by
  have hfuel : path.length < s.heap.brk :=
    (length_le_length_addrs path t).trans_lt h.rep.size_lt_brk
  rcases insertFixupLoop_spec s.heap.brk hfuel h with ⟨s1, T, hs1, hrep1, hvalid, hkeys⟩
  have hroot : Rep s1 (plug [] T) := hrep1
  rcases hroot.setColor_black with ⟨s', hs', hrep'⟩
  refine ⟨s', blacken T, ?_, hrep', hvalid, by rw [keys_blacken, hkeys]⟩
  simp only [insertFixup, hs1, hrep1.root, bind_eq_bind, bind_some]
  exact hs'

/-! ## The descent and the new node -/

variable {key : Int}

/-- The descent of `insert` finds the key, or the empty place where it belongs. -/
theorem insertDescend_spec (fuel : Nat) (hfuel : t.realHeight < fuel) (h : Rep s (plug path t))
    (ho : (plug path t).Ordered) (hf : Fences path key) :
    (key ∈ t.keys ∧ insertDescend key fuel s (holeParent path) (ptr t) = some none) ∨
      ∃ path', plug path' null = plug path t ∧ Fences path' key ∧
        insertDescend key fuel s (holeParent path) (ptr t) = some (some (holeParent path')) := by
  induction t generalizing fuel path with
  | null =>
    cases fuel with
    | zero => omega
    | succ fuel => exact .inr ⟨path, rfl, hf, by simp [insertDescend]⟩
  | node left k tag right ihl ihr =>
    cases fuel with
    | zero => omega
    | succ fuel =>
      rw [realHeight_node] at hfuel
      have hl : Rep s (plug path (sided .left left k tag right)) := h
      have hr : Rep s (plug path (sided .right right k tag left)) := h
      have hne : tag.addr ≠ NIL := hl.addr_ne_nil
      have hon := ho.of_plug
      simp only [insertDescend, ptr, if_neg hne, hl.keyOf_eq, hl.childOf_eq, hr.childOf_eq,
        bind_eq_bind, bind_some]
      rcases lt_trichotomy key k with hlt | rfl | hgt
      · rw [if_pos hlt, hon.mem_left_of_lt hlt]
        exact ihl fuel (by omega) hl ho (hf.left hon hlt)
      · exact .inl (by simp)
      · rw [if_neg hgt.not_gt, if_pos hgt, hon.mem_right_of_lt hgt]
        exact ihr fuel (by omega) hr ho (hf.right hon hgt)

variable {z : Ptr} {T : Shape}

theorem attach_spec (haround : Around s.heap.cell path NIL)
    (hroot : s.root = topPtr path NIL) (hnodup : (pathAddrs path).Nodup) (hf : Fences path key) :
    ∃ s', attach s key z (holeParent path) = some s' ∧ Around s'.heap.cell path z ∧
      s'.root = topPtr path z ∧ (∀ a, a ∉ pathAddrs path → s'.heap.cell a = s.heap.cell a) := by
  rcases path with _ | ⟨f, path⟩
  · refine ⟨{ s with root := z }, ?_, trivial, rfl, fun _ _ => rfl⟩
    simp [attach, holeParent]
  · rcases exists_redirect z haround hnodup with ⟨s', hs', haround', hroot', helse⟩
    have hkey : s.keyOf f.info.addr = some f.key := by simp [keyOf, haround.2.1]
    refine ⟨s', ?_, haround', hroot'.trans hroot, helse⟩
    have hside := hf.side_eq
    simp only [attach, holeParent, if_neg haround.1, hkey, bind_eq_bind, bind_some]
    rw [← hs']
    split_ifs with hlt
    · rw [hside, if_pos hlt]
    · rw [hside, if_neg hlt]

theorem link_spec (h : Rep s (plug path null)) (hf : Fences path key)
    (hz : s.heap.cell z = some (newNode key)) (hzne : z ≠ NIL) (hznot : z ∉ pathAddrs path) :
    ∃ s', link s key z (holeParent path) = some s' ∧
      Rep s' (plug path (node null key ⟨z, .red⟩ null)) := by
  have hnodup : (pathAddrs path).Nodup := by simpa [addrs] using h.nodup_addrs
  have haround : Around s.heap.cell path NIL := h.around
  have hroot : s.root = topPtr path NIL := h.root_plug
  rcases exists_update (fun n => { n with parent := holeParent path }) hz with ⟨s1, hs1, hw1⟩
  have haround1 : Around s1.heap.cell path NIL := by
    apply haround.congr
    intro a ha
    apply hw1.elsewhere a
    rintro rfl
    exact hznot ha
  rcases attach_spec (z := z) haround1 (hw1.root.trans hroot) hnodup hf
    with ⟨s2, hs2, haround2, hroot2, helse2⟩
  have hz2 : s2.heap.cell z = _ := (helse2 z hznot).trans hw1.here
  -- the last three writes repeat what `newNode` wrote
  rcases exists_update (fun n => n.setChild .left NIL) hz2 with ⟨s3, hs3, hw3⟩
  rcases exists_update (fun n => n.setChild .right NIL) hw3.here with ⟨s4, hs4, hw4⟩
  rcases exists_update (fun n => { n with color := .red }) hw4.here with ⟨s5, hs5, hw5⟩
  have helse : ∀ a, a ≠ z → s5.heap.cell a = s2.heap.cell a := by
    intro a ha
    rw [hw5.elsewhere a ha, hw4.elsewhere a ha, hw3.elsewhere a ha]
  have hcell : s5.heap.cell z = some ⟨key, .red, NIL, NIL, holeParent path⟩ := hw5.here
  refine ⟨s5, ?_, Rep.mk_plug ?_ ?_ ?_ ?_ ?_⟩
  · have hs1' : s.setParent z (holeParent path) = some s1 := hs1
    have hs3' : s2.setChild .left z NIL = some s3 := hs3
    have hs4' : s3.setChild .right z NIL = some s4 := hs4
    simp only [link, hs1', hs2, hs3', hs4', bind_eq_bind, bind_some]
    exact hs5
  · apply haround2.congr
    intro a ha
    apply helse a
    rintro rfl
    exact hznot ha
  · exact ⟨hzne, hcell, trivial, trivial⟩
  · rw [hw5.root, hw4.root, hw3.root, hroot2]
    rfl
  · simpa [addrs] using ⟨hznot, hnodup⟩
  · rw [helse NIL (Ne.symm hzne), helse2 NIL haround.ne_nil, hw1.elsewhere NIL (Ne.symm hzne)]
    exact h.sentinel

theorem Rep.congr {s' : RBTree} (h : Rep s T) (hroot : s'.root = s.root)
    (hcell : ∀ a, a = NIL ∨ a ∈ addrs T → s'.heap.cell a = s.heap.cell a) : Rep s' T := by
  refine ⟨h.sub.congr fun a ha => hcell a (.inr ha), hroot.trans h.root, h.nodup, ?_⟩
  rw [hcell NIL (.inl rfl)]
  exact h.sentinel

theorem Rep.allocated (h : Rep s T) {a : Ptr} (ha : a = NIL ∨ a ∈ addrs T) :
    ∃ n, s.heap.cell a = some n := by
  rcases ha with rfl | ha
  · rcases h.sentinel with ⟨parent, hnil⟩
    exact ⟨_, hnil⟩
  · exact h.sub.allocated a ha

theorem length_addrs (t : Shape) : (addrs t).length = t.size := by
  induction t with
  | null => rfl
  | node left key tag right ihl ihr => simp [addrs, size, ihl, ihr]

theorem Rep.realHeight_lt_brk (h : Rep s T) : T.realHeight < s.heap.brk := by
  have hsize := h.size_lt_brk
  rw [length_addrs] at hsize
  exact T.realHeight_le_size.trans_lt hsize

/-- The new node `z` is linked and the tree repaired, or `z` is freed again. -/
theorem insertNode_spec (h : Rep s T) (hv : Valid T) (ho : T.Ordered)
    (hz : s.heap.cell z = some (newNode key)) (hznot : ∀ a, a = NIL ∨ a ∈ addrs T → a ≠ z) :
    ∃ s' T', insertNode s key z = some s' ∧ Rep s' T' ∧ Valid T' ∧ T'.Ordered ∧
      ∀ x, x ∈ T'.keys ↔ x = key ∨ x ∈ T.keys := by
  have hdescend : (key ∈ T.keys ∧ insertDescend key s.heap.brk s NIL s.root = some none) ∨
      ∃ path, plug path null = T ∧ Fences path key ∧
        insertDescend key s.heap.brk s NIL s.root = some (some (holeParent path)) := by
    have hplug : Rep s (plug [] T) := h
    rw [h.root]
    exact insertDescend_spec s.heap.brk h.realHeight_lt_brk hplug ho Fences.nil
  rcases hdescend with ⟨hmem, hdup⟩ | ⟨path, rfl, hf, hplace⟩
  · refine ⟨{ s with heap := s.heap.free z }, T, ?_, ?_, hv, ho, ?_⟩
    · simp [insertNode, hdup]
    · exact h.congr rfl fun a ha => Heap.free_of_ne (hznot a ha)
    · intro x
      constructor
      · exact Or.inr
      · rintro (rfl | hx)
        · exact hmem
        · exact hx
  · have hzpath : z ∉ pathAddrs path := by
      intro hz
      exact hznot z (.inr (addrs_plug.mem_iff.2 (mem_append_right _ hz))) rfl
    rcases link_spec h hf hz (Ne.symm (hznot NIL (.inl rfl))) hzpath with ⟨s1, hs1, hrep1⟩
    rcases hv.fits with ⟨n, hfits⟩
    have hrisen : Risen path (node null key ⟨z, .red⟩ null) n :=
      ⟨hfits.around, (redBlack_red (d := .left)).2 ⟨hfits.tree, hfits.tree, rfl, rfl⟩, rfl⟩
    rcases insertFixup_spec ⟨hrep1, hrisen, rfl⟩ with ⟨s', T', hs', hrep', hvalid', hkeys⟩
    refine ⟨s', T', ?_, hrep', hvalid', ?_, ?_⟩
    · simp only [insertNode, hplace, hs1, bind_eq_bind, bind_some]
      exact hs'
    · rw [Ordered, hkeys]
      exact ordered_plug_single ho hf
    · rw [hkeys]
      simp only [keys_plug, keys_node, mem_append, mem_cons]
      tauto

/-- `insert` returns a valid ordered tree with the one new key. -/
theorem insert_spec (h : Rep s T) (hv : Valid T) (ho : T.Ordered) (key : Int) (hint : Ptr) :
    ∃ s' T', insert s key hint = some s' ∧ Rep s' T' ∧ Valid T' ∧ T'.Ordered ∧
      ∀ x, x ∈ T'.keys ↔ x = key ∨ x ∈ T.keys := by
  have hznot : ∀ a, a = NIL ∨ a ∈ addrs T → a ≠ s.heap.freshAddr hint := by
    rintro a ha rfl
    rcases h.allocated ha with ⟨n, hn⟩
    rw [s.heap.cell_freshAddr hint] at hn
    cases hn
  have hrep : Rep { s with heap := s.heap.alloc hint (newNode key) } T :=
    h.congr rfl fun a ha => Heap.alloc_of_ne (hznot a ha)
  exact insertNode_spec hrep hv ho (s.heap.alloc_self hint (newNode key)) hznot

end SystemsLab.RbTree
