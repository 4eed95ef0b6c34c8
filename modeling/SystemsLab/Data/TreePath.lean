import SystemsLab.Data.SearchTree

/-!
# A place in a binary tree

A path from a place up to the root is a list of frames, innermost first.  Each frame is a node
without one of its subtrees.  `plug` puts a tree into the place, so `plug (f :: path) t` and
`plug path (f.fill t)` are the same tree seen from two places.

Mirrored cases are stated once: `sided d near key info far` is the node whose subtree on the side
`d` is `near`.
-/

namespace SystemsLab

open List

inductive Side where
  | left
  | right
  deriving DecidableEq, Repr

namespace Side

def other : Side → Side
  | left => right
  | right => left

@[simp] theorem other_other (d : Side) : d.other.other = d := by cases d <;> rfl

theorem eq_other_of_ne {d e : Side} (h : e ≠ d) : e = d.other := by
  cases d <;> cases e <;> simp_all [other]

end Side

namespace SearchTree

variable {κ α : Type*}

/-- The node with `near` on the side `d` and `far` on the other side. -/
def sided (d : Side) (near : SearchTree κ α) (key : κ) (info : α) (far : SearchTree κ α) :
    SearchTree κ α :=
  match d with
  | .left => node near key info far
  | .right => node far key info near

theorem sided_other (d : Side) (x y : SearchTree κ α) (key : κ) (info : α) :
    sided d.other x key info y = sided d y key info x := by
  cases d <;> rfl

theorem exists_sided (d : Side) {t : SearchTree κ α} (h : t ≠ null) :
    ∃ near key info far, t = sided d near key info far := by
  cases t with
  | null => exact absurd rfl h
  | node left key info right =>
    cases d with
    | left => exact ⟨left, key, info, right, rfl⟩
    | right => exact ⟨right, key, info, left, rfl⟩

@[simp] theorem sided_ne_null (d : Side) (x y : SearchTree κ α) (key : κ) (info : α) :
    sided d x key info y ≠ null := by
  cases d <;> simp [sided]

theorem keys_rotate (d : Side) (x y z : SearchTree κ α) (k1 k2 : κ) (a1 a2 b1 b2 : α) :
    (sided d (sided d x k1 a1 y) k2 a2 z).keys = (sided d x k1 b1 (sided d y k2 b2 z)).keys := by
  cases d <;> simp [sided]

theorem keys_sided_congr (d : Side) {x x' y y' : SearchTree κ α} (key : κ) (a b : α)
    (hx : x.keys = x'.keys) (hy : y.keys = y'.keys) :
    (sided d x key a y).keys = (sided d x' key b y').keys := by
  cases d <;> simp [sided, hx, hy]

structure Frame (κ α : Type*) where
  side : Side
  key : κ
  info : α
  sibling : SearchTree κ α

def Frame.fill (f : Frame κ α) (t : SearchTree κ α) : SearchTree κ α :=
  sided f.side t f.key f.info f.sibling

/-- The tree with `t` at the place that the path leads to. -/
def plug : List (Frame κ α) → SearchTree κ α → SearchTree κ α
  | [], t => t
  | f :: path, t => plug path (f.fill t)

@[simp] theorem plug_nil (t : SearchTree κ α) : plug [] t = t := rfl

@[simp] theorem plug_cons (f : Frame κ α) (path : List (Frame κ α)) (t : SearchTree κ α) :
    plug (f :: path) t = plug path (f.fill t) := rfl

theorem plug_swap (d : Side) (x y : SearchTree κ α) (key : κ) (info : α) (path : List (Frame κ α)) :
    plug (⟨d, key, info, y⟩ :: path) x = plug (⟨d.other, key, info, x⟩ :: path) y := by
  simp [Frame.fill, sided_other]

theorem plug_append (p q : List (Frame κ α)) (t : SearchTree κ α) :
    plug (p ++ q) t = plug q (plug p t) := by
  induction p generalizing t with
  | nil => rfl
  | cons f p ih => exact ih (f.fill t)

theorem plug_ne_null (path : List (Frame κ α)) {t : SearchTree κ α} (h : t ≠ null) :
    plug path t ≠ null := by
  induction path generalizing t with
  | nil => exact h
  | cons f path ih => exact ih (sided_ne_null f.side t f.sibling f.key f.info)

theorem realHeight_le_plug (path : List (Frame κ α)) (t : SearchTree κ α) :
    t.realHeight ≤ (plug path t).realHeight := by
  induction path generalizing t with
  | nil => exact le_rfl
  | cons f path ih =>
    apply le_trans _ (ih (f.fill t))
    rw [Frame.fill]
    cases f.side <;> simp only [sided, realHeight_node] <;> omega

def keysBefore : List (Frame κ α) → List κ
  | [] => []
  | f :: path =>
    match f.side with
    | .left => keysBefore path
    | .right => keysBefore path ++ f.sibling.keys ++ [f.key]

theorem keysBefore_append (p q : List (Frame κ α)) :
    keysBefore (p ++ q) = keysBefore q ++ keysBefore p := by
  induction p with
  | nil => simp [keysBefore]
  | cons f p ih => cases hd : f.side <;> simp [keysBefore, hd, ih]

def keysAfter : List (Frame κ α) → List κ
  | [] => []
  | f :: path =>
    match f.side with
    | .left => f.key :: f.sibling.keys ++ keysAfter path
    | .right => keysAfter path

theorem keys_plug (path : List (Frame κ α)) (t : SearchTree κ α) :
    (plug path t).keys = keysBefore path ++ t.keys ++ keysAfter path := by
  induction path generalizing t with
  | nil => simp [keysBefore, keysAfter]
  | cons f path ih =>
    rw [plug_cons, ih, Frame.fill]
    cases hd : f.side <;> simp [sided, keysBefore, keysAfter, hd]

theorem keys_plug_congr (path : List (Frame κ α)) {t t' : SearchTree κ α} (h : t.keys = t'.keys) :
    (plug path t).keys = (plug path t').keys := by
  rw [keys_plug, keys_plug, h]

/-! ## Order around a place -/

variable [LinearOrder κ] {path : List (Frame κ α)} {t : SearchTree κ α} {key : κ}

theorem Ordered.of_plug (h : (plug path t).Ordered) : t.Ordered := by
  rw [Ordered, keys_plug, append_assoc] at h
  exact (pairwise_append.1 (pairwise_append.1 h).2.1).1

/-- The keys before the place are smaller than `key` and those behind it are larger. -/
structure Fences (path : List (Frame κ α)) (key : κ) : Prop where
  before : ∀ x ∈ keysBefore path, x < key
  after : ∀ x ∈ keysAfter path, key < x

theorem Fences.nil : Fences ([] : List (Frame κ α)) key := ⟨nofun, nofun⟩

variable {l r : SearchTree κ α} {k : κ} {info : α}

theorem Fences.left (h : Fences path key) (ho : (node l k info r).Ordered) (hlt : key < k) :
    Fences (⟨.left, k, info, r⟩ :: path) key := by
  rcases ordered_node.1 ho with ⟨-, -, -, hgt⟩
  refine ⟨h.before, ?_⟩
  intro x hx
  simp only [keysAfter, cons_append, mem_cons, mem_append] at hx
  rcases hx with rfl | hx | hx
  · exact hlt
  · exact hlt.trans (hgt x hx)
  · exact h.after x hx

theorem Fences.right (h : Fences path key) (ho : (node l k info r).Ordered) (hlt : k < key) :
    Fences (⟨.right, k, info, l⟩ :: path) key := by
  rcases ordered_node.1 ho with ⟨-, -, hless, -⟩
  refine ⟨?_, h.after⟩
  intro x hx
  simp only [keysBefore, append_assoc, mem_append, mem_singleton] at hx
  rcases hx with hx | hx | rfl
  · exact h.before x hx
  · exact (hless x hx).trans hlt
  · exact hlt

theorem Fences.side_eq {f : Frame κ α} (h : Fences (f :: path) key) :
    f.side = if key < f.key then .left else .right := by
  cases hd : f.side with
  | left =>
    rw [if_pos]
    apply h.after
    simp [keysAfter, hd]
  | right =>
    rw [if_neg]
    apply lt_asymm
    apply h.before
    simp [keysBefore, hd]

/-- A key that the path fences in can be put into the empty place. -/
theorem ordered_plug_single {a : α} (ho : (plug path null).Ordered) (h : Fences path key) :
    (plug path (node null key a null)).Ordered := by
  simp only [Ordered, keys_plug, keys_node, keys_null, nil_append,
    append_assoc, singleton_append, pairwise_append, pairwise_cons,
    mem_cons] at ho ⊢
  rcases ho with ⟨hb, ha, hba⟩
  refine ⟨hb, ⟨h.after, ha⟩, ?_⟩
  intro x hx y hy
  rcases hy with rfl | hy
  · exact h.before x hx
  · exact hba x hx y hy

theorem Ordered.remove (ho : (plug path (node l key info r)).Ordered) :
    (keysBefore path ++ (l.keys ++ r.keys) ++ keysAfter path).Pairwise (· < ·) := by
  rw [Ordered, keys_plug] at ho
  have hsub : (l.keys ++ r.keys).Sublist (l.keys ++ key :: r.keys) :=
    (sublist_cons_self key r.keys).append_left l.keys
  exact Pairwise.sublist ((hsub.append_left _).append_right _) ho

theorem Ordered.mem_remove (ho : (plug path (node l key info r)).Ordered) {x : κ} :
    x ∈ keysBefore path ++ (l.keys ++ r.keys) ++ keysAfter path ↔
      x ≠ key ∧ x ∈ (plug path (node l key info r)).keys := by
  have hnodup : (plug path (node l key info r)).keys.Nodup := ho.imp ne_of_lt
  rw [keys_plug, keys_node] at hnodup ⊢
  have hperm : (keysBefore path ++ (l.keys ++ key :: r.keys) ++ keysAfter path).Perm
      (key :: (keysBefore path ++ (l.keys ++ r.keys) ++ keysAfter path)) := by
    calc
      Perm _ (keysBefore path ++ (key :: (l.keys ++ r.keys)) ++ keysAfter path) :=
        (perm_middle.append_left _).append_right _
      Perm _ (key :: (keysBefore path ++ (l.keys ++ r.keys)) ++ keysAfter path) :=
        perm_middle.append_right _
  have hnot := (nodup_cons.1 (hperm.nodup_iff.1 hnodup)).1
  rw [hperm.mem_iff, mem_cons]
  constructor
  · intro hx
    exact ⟨fun heq => hnot (heq ▸ hx), .inr hx⟩
  · rintro ⟨hne, rfl | hx⟩
    · exact absurd rfl hne
    · exact hx

end SearchTree
end SystemsLab
