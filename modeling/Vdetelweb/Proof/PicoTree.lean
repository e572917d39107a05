import Vdetelweb.Spec.PicoTree

/-!
# What the trees of the stack keep

`Stands` says that the nodes in memory make a tree, with the parents as they should be. Each part of
`pico_tree.c` is given one theorem, about a place anywhere in the tree: a rotation turns the tree there
(`Stands.rotateTo`), and a colour is only a colour (`Stands.setColor`). So the order of the nodes is
kept whatever the colours are, and `LEAF`, which other trees paint as well, may be red.
-/

namespace Vdetelweb

open Function Trees Bin

variable {K : Type}

/-- A node of the tree: its address, its key and its colour. -/
abbrev TreeNode (K : Type) := Placed (NodeValue K)

namespace PicoTree

/-- **The tree stands in memory**: each node has an address of its own, and `LEAF` is a leaf. -/
structure Stands (t : PicoTree K) (T : Bin (TreeNode K)) : Prop where
  root : t.root = ptr T
  rep : Rep t.node LEAF T
  nodup : (addrs T).Nodup
  leaf : ∃ color, t.node LEAF = some (leafNode color)

/-- Nothing was allocated or freed. -/
structure Same (t t' : PicoTree K) : Prop where
  next : t'.next = t.next
  live : ∀ a, (t'.node a).isSome = (t.node a).isSome

theorem Same.refl (t : PicoTree K) : Same t t := ⟨rfl, fun _ => rfl⟩

theorem Same.trans {t t' t'' : PicoTree K} (h : Same t t') (h' : Same t' t'') : Same t t'' :=
  ⟨h'.next.trans h.next, fun a => (h'.live a).trans (h.live a)⟩

variable {t t' : PicoTree K} {fs : List (Frame (TreeNode K))} {T : Bin (TreeNode K)} {x y : TreeNode K} {d : Side}
  {l r s u : Bin (TreeNode K)} {a b p q : ℕ} {n : PicoTreeNode K}

/-! ## Assignments -/

theorem set_eq (hn : t.node a = some n) (f : PicoTreeNode K → PicoTreeNode K) :
    t.set a f = some { t with node := update t.node a (some (f n)) } := by
  rw [PicoTree.set, hn]
  rfl

theorem same_update (hn : t.node a = some n) (m : PicoTreeNode K) (root : ℕ) :
    Same t { t with root := root, node := update t.node a (some m) } := by
  refine ⟨rfl, fun b => ?_⟩
  by_cases hb : b = a
  · rw [hb, hn]
    show (update t.node a (some m) a).isSome = _
    rw [update_self]
    rfl
  · exact congrArg Option.isSome (update_of_ne hb ..)

/-- Memory is the same but for some addresses, and nothing was allocated or freed. -/
structure Only (l : List ℕ) (t t' : PicoTree K) : Prop extends Same t t' where
  node : ∀ a ∉ l, t'.node a = t.node a

theorem Only.refl (l : List ℕ) (t : PicoTree K) : Only l t t := ⟨.refl t, fun _ _ => rfl⟩

/-- The fields of a node are assigned. -/
theorem set_only (hn : t.node a = some n) (f : PicoTreeNode K → PicoTreeNode K) {l : List ℕ} (ha : a ∈ l) :
    ∃ t', t.set a f = some t' ∧ t'.node = update t.node a (some (f n)) ∧ t'.root = t.root ∧ Only l t t' := by
  refine ⟨_, set_eq hn f, rfl, rfl, same_update hn _ _, fun b hb => update_of_ne ?_ _ _⟩
  rintro rfl
  exact hb ha

/-- **A subtree gets another parent.** -/
theorem adopt_spec (hT : Rep t.node p T) (hnodup : (addrs T).Nodup) (q : ℕ) :
    ∃ t', t.adopt (ptr T) q = some t' ∧ Rep t'.node q T ∧ t'.root = t.root ∧ Only (addrs T) t t' := by
  unfold adopt
  by_cases hleaf : ptr T = LEAF
  · rw [if_pos hleaf]
    refine ⟨t, rfl, ?_, rfl, .refl _ t⟩
    cases T with
    | leaf => trivial
    | node x l r => exact absurd hleaf hT.1
  · rw [if_neg hleaf]
    obtain ⟨n, hn⟩ : ∃ n, t.node (ptr T) = some n := by
      cases T with
      | leaf => exact absurd rfl hleaf
      | node x l r => exact ⟨_, hT.2.1⟩
    obtain ⟨t', hset, hnode, hroot, honly⟩ := set_only hn (fun n => { n with parent := q }) (ptr_mem hleaf)
    refine ⟨t', hset, ?_, hroot, honly⟩
    rw [hnode]
    exact hT.adopted hnodup hn hleaf q

/-- **Something else comes to the place.** -/
theorem replaceChild_spec (hfs : Above t.node t.root a fs) (hnodup : (frameAddrs fs).Nodup) (ha : a ∉ frameAddrs fs)
    (hne : a ≠ LEAF) (d : Side) (b : ℕ) :
    ∃ t', t.replaceChild d (up fs) a b = some t' ∧ Above t'.node t'.root b fs ∧ Only (frameAddrs fs) t t' := by
  unfold replaceChild
  cases fs with
  | nil =>
    rw [up_nil, if_pos rfl]
    exact ⟨_, rfl, rfl, ⟨rfl, fun _ => rfl⟩, fun _ _ => rfl⟩
  | cons f fs =>
    have hcell := hfs.2.1
    rw [up_cons, if_neg hfs.1, hcell, Option.bind_eq_bind, Option.bind_some]
    -- the place is the child on the side of the frame, and no other
    have hfar : a ≠ ptr f.far := by
      intro he
      have hmem := ptr_mem (t := f.far) (he ▸ hne)
      exact ha (mem_frameAddrs_cons.2 (Or.inr (Or.inl (he ▸ hmem))))
    have hassign : ∀ e, e = f.side → ∃ t', t.setChild e f.x.1 b = some t' ∧ Above t'.node t'.root b (f :: fs) ∧
        Only (frameAddrs (f :: fs)) t t' := by
      rintro e rfl
      obtain ⟨t', hset, hnode, hroot, honly⟩ := set_only hcell (Cell.setChild f.side b)
        (l := frameAddrs (f :: fs)) (mem_frameAddrs_cons.2 (Or.inl rfl))
      refine ⟨t', hset, ?_, honly⟩
      rw [hnode, hroot]
      exact hfs.hung hnodup hcell b
    rcases Side.eq_or_eq_other f.side d with rfl | rfl
    · rw [if_pos (Cell.of_child ..).symm]
      exact hassign _ rfl
    · rw [Cell.of_child_other, if_neg hfar, Side.other_other]
      exact hassign _ rfl

/-! ## The tree and its places -/

theorem Stands.at_place (h : Stands t (plug fs T)) : Above t.node t.root (ptr T) fs ∧ Rep t.node (up fs) T ∧
    (frameAddrs fs).Nodup ∧ (addrs T).Nodup ∧ ∀ a ∈ addrs T, a ∉ frameAddrs fs := by
  obtain ⟨habove, hrep⟩ := rep_plug.2 ⟨h.root, h.rep⟩
  exact ⟨habove, hrep, distinct_iff.1 h.nodup⟩

theorem stands_plug (habove : Above t.node t.root (ptr T) fs) (hrep : Rep t.node (up fs) T)
    (hdistinct : Distinct fs T) (hleaf : ∃ color, t.node LEAF = some (leafNode color)) : Stands t (plug fs T) := by
  obtain ⟨hroot, hrep⟩ := rep_plug.1 ⟨habove, hrep⟩
  exact ⟨hroot, hrep, hdistinct, hleaf⟩

/-- The cell of a node. -/
theorem Stands.cell (h : Stands t (plug fs (make d x l r))) :
    x.1 ≠ LEAF ∧ t.node x.1 = some (.of d (up fs) (ptr l) (ptr r) x.2) := by
  obtain ⟨-, hrep, -⟩ := h.at_place
  obtain ⟨hne, hcell, -⟩ := rep_make.1 hrep
  exact ⟨hne, hcell⟩

/-- The cell of the innermost frame. -/
theorem Stands.frame {f : Frame (TreeNode K)} (h : Stands t (plug (f :: fs) T)) :
    f.x.1 ≠ LEAF ∧ t.node f.x.1 = some (.of f.side (up fs) (ptr T) (ptr f.far) f.x.2) := by
  obtain ⟨⟨hne, hcell, -⟩, -⟩ := h.at_place
  exact ⟨hne, hcell⟩

/-- `LEAF` is no node of the tree. -/
theorem Stands.leaf_notMem (h : Stands t T) : LEAF ∉ addrs T := fun hmem => h.rep.ne_zero hmem rfl

/-! ## Rotations -/

/-- Only pointers of nodes were assigned. -/
structure Still (t t' : PicoTree K) : Prop extends Same t t' where
  leaf : t'.node LEAF = t.node LEAF

/-- **The end of a rotation.** The node has its new child already, and the child of that was its own. -/
theorem turn_spec (hfs : Above t.node t.root x.1 fs) (hx : x.1 ≠ LEAF) (hy : y.1 ≠ LEAF)
    (hxcell : t.node x.1 = some (.of d (up fs) (ptr s) (ptr u) x.2))
    (hycell : t.node y.1 = some (.of d x.1 (ptr u) (ptr r) y.2))
    (hs : Rep t.node x.1 s) (hu : Rep t.node y.1 u) (hr : Rep t.node y.1 r)
    (hdistinct : Distinct fs (make d y (make d x s u) r)) (hleaf : ∃ color, t.node LEAF = some (leafNode color)) :
    ∃ t', t.turn d x.1 y.1 (ptr u) = some t' ∧ Stands t' (plug fs (make d y (make d x s u) r)) ∧ Still t t' := by
  have hnodup := hdistinct
  rw [distinct_iff, nodup_addrs_make, nodup_addrs_make] at hnodup
  obtain ⟨hframes, ⟨hyx, hyr, ⟨hxs, hxu, -, huu, hsu⟩, -, hxr⟩, hapart⟩ := hnodup
  simp only [mem_addrs_make, not_or, forall_eq_or_imp] at hyx hxr hapart
  obtain ⟨hyx, hys, hyu⟩ := hyx
  obtain ⟨hxr, hsur⟩ := hxr
  obtain ⟨hyfs, hapart⟩ := hapart
  have hxfs : x.1 ∉ frameAddrs fs := hapart x.1 (Or.inl (Or.inl rfl))
  unfold turn
  obtain ⟨t₁, hadopt, hu₁, hroot₁, honly₁⟩ := adopt_spec hu huu x.1
  have hx₁ : t₁.node x.1 = _ := (honly₁.node _ hxu).trans hxcell
  have hy₁ : t₁.node y.1 = _ := (honly₁.node _ hyu).trans hycell
  obtain ⟨t₂, hparent, hnode₂, hroot₂, honly₂⟩ := set_only hy₁ (fun n => { n with parent := up fs })
    (List.mem_singleton_self y.1)
  -- the frames are as they were
  have hfs₂ : Above t₂.node t₂.root x.1 fs := by
    rw [hroot₂, hroot₁]
    refine hfs.congr fun a ha => ?_
    rw [honly₂.node a ?_, honly₁.node a ?_]
    · exact fun hau => hapart a (Or.inl (Or.inr (Or.inr hau))) ha
    · rw [List.mem_singleton]
      rintro rfl
      exact hyfs ha
  obtain ⟨t₃, hreplace, hfs₃, honly₃⟩ := replaceChild_spec hfs₂ hframes hxfs hx d y.1
  have hy₃ : t₃.node y.1 = some (.of d (up fs) (ptr u) (ptr r) y.2) := by
    rw [honly₃.node _ hyfs, hnode₂, update_self, Cell.of_with_parent]
  obtain ⟨t₄, hchild, hnode₄, hroot₄, honly₄⟩ := set_only hy₃ (Cell.setChild d x.1) (List.mem_singleton_self y.1)
  have hx₄ : t₄.node x.1 = some (.of d (up fs) (ptr s) (ptr u) x.2) := by
    have hxy : x.1 ∉ [y.1] := fun hmem => hyx (List.mem_singleton.1 hmem).symm
    rw [honly₄.node _ hxy, honly₃.node _ hxfs, honly₂.node _ hxy, hx₁]
  obtain ⟨t₅, hlast, hnode₅, hroot₅, honly₅⟩ := set_only hx₄ (fun n => { n with parent := y.1 })
    (List.mem_singleton_self x.1)
  have hsince₃ : ∀ a, a ≠ x.1 → a ≠ y.1 → t₅.node a = t₃.node a := fun a hax hay => by
    rw [honly₅.node a (List.mem_singleton.not.2 hax), honly₄.node a (List.mem_singleton.not.2 hay)]
  have hsince₁ : ∀ a, a ≠ x.1 → a ≠ y.1 → a ∉ frameAddrs fs → t₅.node a = t₁.node a := fun a hax hay hafs => by
    rw [hsince₃ a hax hay, honly₃.node a hafs, honly₂.node a (List.mem_singleton.not.2 hay)]
  have hleaf₅ : t₅.node LEAF = t.node LEAF := by
    rw [hsince₁ LEAF hx.symm hy.symm fun hmem => hfs.ne_zero hmem rfl, honly₁.node LEAF fun hmem => hu.ne_zero hmem rfl]
  refine ⟨t₅, ?_, stands_plug ?_ ?_ ?_ ?_, ?_⟩
  · simp only [hadopt, hx₁, Cell.of_parent, setParent, hparent, hreplace, setChild, hchild, hlast,
      Option.bind_eq_bind, Option.bind_some]
  · rw [ptr_make, hroot₅, hroot₄]
    refine hfs₃.congr fun a ha => hsince₃ a ?_ ?_
    · rintro rfl
      exact hxfs ha
    · rintro rfl
      exact hyfs ha
  · refine rep_make.2 ⟨hy, ?_, rep_make.2 ⟨hx, ?_, ?_, ?_⟩, ?_⟩
    · rw [honly₅.node y.1 (List.mem_singleton.not.2 hyx), hnode₄, update_self, Cell.of_setChild, ptr_make]
    · rw [hnode₅, update_self, Cell.of_with_parent]
    · refine hs.congr fun a ha => ?_
      rw [hsince₁ a (ne_of_mem_of_not_mem ha hxs) (ne_of_mem_of_not_mem ha hys) (hapart a (Or.inl (Or.inr (Or.inl ha)))),
        honly₁.node a (hsu a ha)]
    · exact hu₁.congr fun a ha => hsince₁ a (ne_of_mem_of_not_mem ha hxu) (ne_of_mem_of_not_mem ha hyu)
        (hapart a (Or.inl (Or.inr (Or.inr ha))))
    · refine hr.congr fun a ha => ?_
      rw [hsince₁ a (ne_of_mem_of_not_mem ha hxr) (ne_of_mem_of_not_mem ha hyr) (hapart a (Or.inr ha)),
        honly₁.node a fun hau => hsur a (Or.inr hau) ha]
  · exact hdistinct
  · rw [hleaf₅]
    exact hleaf
  · exact ⟨honly₁.toSame.trans (honly₂.toSame.trans (honly₃.toSame.trans (honly₄.toSame.trans honly₅.toSame))), hleaf₅⟩

theorem rotateTo_eq {near temp inner far : ℕ} {v w : NodeValue K} (ha : t.node a = some (.of d p near temp v))
    (htemp : temp ≠ LEAF) (hb : t.node temp = some (.of d q inner far w)) :
    t.rotateTo d a = (t.setChild d.other a inner).bind fun t => t.turn d a temp inner := by
  cases d
  · simp only [rotateTo, rotateToLeft, ha, hb, Cell.of, htemp, if_false, Option.bind_eq_bind, Option.bind_some,
      Side.other_left]
  · simp only [rotateTo, rotateToRight, ha, hb, Cell.of, htemp, if_false, Option.bind_eq_bind, Option.bind_some,
      Side.other_right]

/-- Nothing is rotated when there is no child to come up. -/
theorem rotateTo_leaf {near : ℕ} {v : NodeValue K} (ha : t.node a = some (.of d p near LEAF v)) {color : Color}
    (hleaf : t.node LEAF = some (leafNode color)) : t.rotateTo d a = some t := by
  cases d
  · simp only [rotateTo, rotateToLeft, ha, Cell.of, if_true, Option.bind_eq_bind, Option.bind_some]
  · have hsame : update t.node a (some ⟨p, LEAF, near, v⟩) = t.node := by
      rw [update_eq_self_iff, ha]
      rfl
    simp only [rotateTo, rotateToRight, ha, hleaf, setChild, set, Option.map_some, Cell.of, leafNode, Cell.setChild, hsame,
      if_true, Option.bind_eq_bind, Option.bind_some]

/-- **A rotation** at a place. -/
theorem Stands.rotateTo (h : Stands t (plug fs (make d x s (make d y u r)))) :
    ∃ t', t.rotateTo d x.1 = some t' ∧ Stands t' (plug fs (make d y (make d x s u) r)) ∧ Still t t' := by
  obtain ⟨habove, hrep, hnodup⟩ := h.at_place
  obtain ⟨hx, hxcell, hs, hyrep⟩ := rep_make.1 hrep
  obtain ⟨hy, hycell, hu, hr⟩ := rep_make.1 hyrep
  rw [ptr_make] at habove hxcell
  rw [nodup_addrs_make, nodup_addrs_make] at hnodup
  obtain ⟨-, ⟨hxs, hxy, -, ⟨hyu, hyr, -⟩, -⟩, hapart⟩ := hnodup
  simp only [mem_addrs_make, not_or, forall_eq_or_imp] at hxy hapart
  obtain ⟨hxy, hxu, hxr⟩ := hxy
  obtain ⟨t₁, hset, hnode, hroot, honly⟩ := set_only hxcell (Cell.setChild d.other (ptr u)) (List.mem_singleton_self x.1)
  have hdistinct : Distinct fs (make d y (make d x s u) r) := by
    unfold Distinct addrs
    rw [inorder_plug_congr fs (inorder_rotate d x y s u r)]
    exact h.nodup
  obtain ⟨color, hcolor⟩ := h.leaf
  have hturn := turn_spec (t := t₁)
    (by rw [hnode, hroot]; exact habove.elsewhere hapart.1 _) hx hy
    (by rw [hnode, update_self, Cell.of_setChild_other])
    (by rw [hnode, update_of_ne (Ne.symm hxy), hycell])
    (by rw [hnode]; exact hs.elsewhere hxs _) (by rw [hnode]; exact hu.elsewhere hxu _)
    (by rw [hnode]; exact hr.elsewhere hxr _) hdistinct ⟨color, by rw [hnode, update_of_ne hx.symm, hcolor]⟩
  obtain ⟨t₂, hturn, hstands, hsame⟩ := hturn
  have hleaf₂ : t₂.node LEAF = t.node LEAF := by rw [hsame.leaf, hnode, update_of_ne hx.symm]
  refine ⟨t₂, ?_, hstands, honly.toSame.trans hsame.toSame, hleaf₂⟩
  rw [rotateTo_eq hxcell hy hycell, setChild, hset, Option.bind_some]
  exact hturn

/-! ## Colours -/

/-- `LEAF` is black. -/
def LeafBlack (t : PicoTree K) : Prop := t.node LEAF = some (leafNode .BLACK)

/-- The tree with its root painted. -/
def paint (color : Color) : Bin (TreeNode K) → Bin (TreeNode K)
  | .leaf => .leaf
  | .node x l r => .node (x.1, { x.2 with color := color }) l r

@[simp] theorem ptr_paint (color : Color) (T : Bin (TreeNode K)) : ptr (paint color T) = ptr T := by
  cases T <;> rfl

/-- The node in a colour. -/
def painted (color : Color) (x : TreeNode K) : TreeNode K := (x.1, { x.2 with color := color })

@[simp] theorem painted_fst (color : Color) (x : TreeNode K) : (painted color x).1 = x.1 := rfl
@[simp] theorem painted_color (color : Color) (x : TreeNode K) : (painted color x).2.color = color := rfl

@[simp] theorem paint_make (color : Color) (d : Side) (x : TreeNode K) (s u : Bin (TreeNode K)) :
    paint color (make d x s u) = make d (painted color x) s u := by cases d <;> rfl

/-- What a tree holds: its nodes with their keys, in order. -/
def keys (T : Bin (TreeNode K)) : List (ℕ × Option K) := T.inorder.map fun x => (x.1, x.2.keyValue)

@[simp] theorem keys_paint (color : Color) (T : Bin (TreeNode K)) : keys (paint color T) = keys T := by
  cases T <;> simp [keys, paint]

theorem keys_plug_congr (fs : List (Frame (TreeNode K))) {T T' : Bin (TreeNode K)} (h : keys T = keys T') :
    keys (plug fs T) = keys (plug fs T') := by
  unfold keys at h ⊢
  rw [inorder_plug, inorder_plug, List.map_append, List.map_append, List.map_append, List.map_append, h]

theorem addrs_eq_keys (T : Bin (TreeNode K)) : addrs T = (keys T).map Prod.fst := by
  rw [keys, List.map_map]
  rfl

/-- **A node is painted**, or `LEAF` is. -/
theorem Stands.setColor (h : Stands t (plug fs T)) (color : Color) :
    ∃ t', t.setColor (ptr T) color = some t' ∧ Stands t' (plug fs (paint color T)) ∧ Same t t' ∧
      ((ptr T = LEAF → color = .BLACK) → LeafBlack t → LeafBlack t') := by
  obtain ⟨habove, hrep, -, -, hapart⟩ := h.at_place
  cases T with
  | leaf =>
    -- `LEAF` is in no tree
    obtain ⟨c, hc⟩ := h.leaf
    obtain ⟨t', hset, hnode, hroot, honly⟩ := set_only hc
      (fun n => { n with value := { n.value with color := color } }) (List.mem_singleton_self LEAF)
    have hpainted : t'.node LEAF = some (leafNode color) := by
      rw [hnode]
      exact update_self ..
    refine ⟨t', hset, ⟨hroot.trans h.root, ?_, h.nodup, color, hpainted⟩, honly.toSame, fun hcolor _ => ?_⟩
    · rw [hnode]
      exact h.rep.elsewhere h.leaf_notMem _
    · rw [LeafBlack, hpainted, hcolor rfl]
  | node x l r =>
    obtain ⟨hx, hcell, hl, hr⟩ := hrep
    have hown := h.at_place.2.2.2.1
    obtain ⟨hxl, hxr, -⟩ := nodup_addrs_make (d := .left).1 hown
    obtain ⟨t', hset, hnode, hroot, honly⟩ := set_only hcell
      (fun n => { n with value := { n.value with color := color } }) (List.mem_singleton_self x.1)
    have hxfs : x.1 ∉ frameAddrs fs := hapart _ (ptr_mem (t := .node x l r) hx)
    have hleaf' : t'.node LEAF = t.node LEAF := honly.node LEAF (List.mem_singleton.not.2 (Ne.symm hx))
    refine ⟨t', hset, stands_plug ?_ ⟨hx, ?_, ?_, ?_⟩ ?_ ?_, honly.toSame, fun _ hblack => hleaf'.trans hblack⟩
    · rw [hnode, hroot]
      exact habove.elsewhere hxfs _
    · rw [hnode]
      exact update_self ..
    · rw [hnode]
      exact hl.elsewhere hxl _
    · rw [hnode]
      exact hr.elsewhere hxr _
    · have hkeys := keys_plug_congr fs (keys_paint color (.node x l r))
      unfold Distinct
      rw [addrs_eq_keys, hkeys, ← addrs_eq_keys]
      exact h.nodup
    · rw [hleaf']
      exact h.leaf

/-- The children of a node are not the same. -/
theorem Stands.far_ne {f : Frame (TreeNode K)} (h : Stands t (plug (f :: fs) T)) (hT : ptr T ≠ LEAF) :
    ptr T ≠ ptr f.far := by
  obtain ⟨-, -, -, -, hapart⟩ := h.at_place
  intro he
  have hfar := ptr_mem (he ▸ hT)
  exact hapart _ (ptr_mem hT) (mem_frameAddrs_cons.2 (Or.inr (Or.inl (he ▸ hfar))))

/-- A red node. -/
def IsRed (x : TreeNode K) : Prop := x.2.color = .RED

theorem isRed (x : TreeNode K) : IsRed (painted .RED x) := rfl

theorem not_isRed (x : TreeNode K) : ¬ IsRed (painted .BLACK x) := fun h => by cases h

instance : DecidablePred (IsRed (K := K)) := fun x => inferInstanceAs (Decidable (x.2.color = .RED))

/-- **The colour** of what is at a place, which may be `LEAF`. -/
theorem Stands.color (h : Stands t (plug fs T)) : ∃ n, t.node (ptr T) = some n ∧ (T = .leaf → n.parent = LEAF) ∧
    ((T = .leaf → LeafBlack t) → (n.value.color = .RED ↔ RedRoot IsRed T)) := by
  cases T with
  | leaf =>
    obtain ⟨c, hc⟩ := h.leaf
    refine ⟨_, hc, fun _ => rfl, fun hblack => ⟨fun hred => ?_, fun hred => absurd hred not_false⟩⟩
    have hsame := Option.some.inj (hc.symm.trans (hblack rfl))
    rw [hsame] at hred
    cases hred
  | node x l r =>
    obtain ⟨-, hcell⟩ := h.cell (d := .left)
    exact ⟨_, hcell, fun he => absurd he (fun he => by cases he), fun _ => Iff.rfl⟩

/-! ## `fix_insert_collisions` -/

variable {f g : Frame (TreeNode K)}

/-- **A red uncle**: the clash goes up by two nodes. -/
theorem recolorCollision_spec (h : Stands t (plug (f :: g :: fs) T)) :
    ∃ t', t.recolorCollision f.x.1 (ptr g.far) g.x.1 = some (g.x.1, t') ∧
      Stands t' (plug fs (make g.side (painted .RED g.x) (make f.side (painted .BLACK f.x) T f.far)
        (paint .BLACK g.far))) ∧ Same t t' ∧ (LeafBlack t → LeafBlack t') := by
  have hparent : Stands t (plug (g :: fs) (make f.side f.x T f.far)) := h
  have hg : g.x.1 ≠ LEAF := hparent.frame.1
  obtain ⟨t₁, hset₁, h₁, hsame₁, hleaf₁⟩ := hparent.setColor .BLACK
  rw [ptr_make] at hset₁ hleaf₁
  rw [paint_make] at h₁
  -- the uncle is at a place of its own
  have huncle : Stands t₁ (plug (⟨g.side.other, g.x, make f.side (painted .BLACK f.x) T f.far⟩ :: fs) g.far) := by
    rw [plug_cons, fill_other]
    exact h₁
  obtain ⟨t₂, hset₂, h₂, hsame₂, hleaf₂⟩ := huncle.setColor .BLACK
  rw [plug_cons, fill_other] at h₂
  have hgranpa : Stands t₂ (plug fs (make g.side g.x (make f.side (painted .BLACK f.x) T f.far) (paint .BLACK g.far))) := h₂
  obtain ⟨t₃, hset₃, h₃, hsame₃, hleaf₃⟩ := hgranpa.setColor .RED
  rw [ptr_make] at hset₃ hleaf₃
  rw [paint_make] at h₃
  refine ⟨t₃, ?_, h₃, hsame₁.trans (hsame₂.trans hsame₃), fun hblack => ?_⟩
  · simp only [recolorCollision, hset₁, hset₂, hset₃, Option.bind_eq_bind, Option.bind_some]
  · have hblack₂ := hleaf₂ (fun _ => rfl) (hleaf₁ (fun _ => rfl) hblack)
    exact hleaf₃ (fun he => absurd he hg) hblack₂

variable {A B : Bin (TreeNode K)} {x' y' z' : TreeNode K} {e : Side}

/-- The second rotation, at the node `T`, whose parent is `x` and whose grandparent is `y`. -/
theorem outerTurn_spec (h : Stands t (plug (⟨d, x, A⟩ :: ⟨d, y, B⟩ :: fs) T)) (hT : ptr T ≠ LEAF) :
    ∃ t', t.outerTurn d (ptr T) = some (ptr T, t') ∧
      Stands t' (plug fs (make d (painted .BLACK x) T (make d (painted .RED y) A B))) ∧ Same t t' ∧
      (LeafBlack t → LeafBlack t') := by
  obtain ⟨n, hn, hparent⟩ : ∃ n, t.node (ptr T) = some n ∧ n.parent = x.1 := by
    cases T with
    | leaf => exact absurd rfl hT
    | node z l r => exact ⟨_, (Stands.cell (d := .left) h).2, rfl⟩
  have hfirst : Stands t (plug (⟨d, y, B⟩ :: fs) (make d x T A)) := h
  obtain ⟨t₁, hset₁, h₁, hsame₁, hleaf₁⟩ := hfirst.setColor .BLACK
  rw [ptr_make] at hset₁ hleaf₁
  rw [paint_make] at h₁
  have hx := h₁.cell
  have hp : t₁.node x.1 = some (.of d y.1 (ptr T) (ptr A) (painted .BLACK x).2) := hx.2
  have hsecond : Stands t₁ (plug fs (make d y (make d (painted .BLACK x) T A) B)) := h₁
  obtain ⟨t₂, hset₂, h₂, hsame₂, hleaf₂⟩ := hsecond.setColor .RED
  rw [ptr_make] at hset₂ hleaf₂
  rw [paint_make] at h₂
  have hy := h₂.cell
  have hplace : Stands t₂ (plug fs (make d.other (painted .RED y) B (make d.other (painted .BLACK x) A T))) := by
    rw [make_other, make_other]
    exact h₂
  obtain ⟨t₃, hrotate, h₃, hstill⟩ := hplace.rotateTo
  rw [make_other, make_other] at h₃
  refine ⟨t₃, ?_, h₃, hsame₁.trans (hsame₂.trans hstill.toSame), fun hblack => ?_⟩
  · rw [painted_fst] at hrotate
    simp only [outerTurn, hn, hparent, hset₁, hp, Cell.of_parent, hset₂, hrotate, Option.bind_eq_bind, Option.bind_some]
  · have hblack₁ := hleaf₁ (fun he => absurd he hx.1) hblack
    exact hstill.leaf.trans (hleaf₂ (fun he => absurd he hy.1) hblack₁)

/-- **A black uncle**: the tree is turned once or twice, and then the clash is no more. -/
theorem rotateCollision_spec (h : Stands t (plug (⟨e, x, A⟩ :: ⟨d, y, B⟩ :: fs) (make d z' u r))) :
    ∃ t' top T A', t.rotateCollision d z'.1 x.1 = some (ptr T, t') ∧ ptr T ≠ LEAF ∧
      Stands t' (plug fs (make d (painted .BLACK top) T (make d (painted .RED y) A' B))) ∧ Same t t' ∧
      (LeafBlack t → LeafBlack t') ∧
      (e = d ∧ top = x ∧ T = make d z' u r ∧ A' = A ∨ e = d.other ∧ top = z' ∧ T = make d x A u ∧ A' = r) := by
  have hz := h.cell
  have hx : x.1 ≠ LEAF ∧ t.node x.1 = some (.of e y.1 z'.1 (ptr A) x.2) := by
    have hcell := h.frame
    rwa [ptr_make] at hcell
  rcases Side.eq_or_eq_other d e with rfl | rfl
  · have hne : z'.1 ≠ ptr A := by
      have hchild := h.far_ne (by rw [ptr_make]; exact hz.1)
      rwa [ptr_make] at hchild
    obtain ⟨t', houter, h', hsame, hleaf⟩ := outerTurn_spec h (by rw [ptr_make]; exact hz.1)
    refine ⟨t', x, make e z' u r, A, ?_, by rw [ptr_make]; exact hz.1, h', hsame, hleaf, Or.inl ⟨rfl, rfl, rfl, rfl⟩⟩
    simp only [rotateCollision, innerTurn, hx.2, Cell.of_child_other, if_neg hne, Option.bind_eq_bind, Option.bind_some]
    rw [ptr_make] at houter ⊢
    exact houter
  · have hplace : Stands t (plug (⟨d, y, B⟩ :: fs) (make d x A (make d z' u r))) := by
      rw [← make_other]
      exact h
    obtain ⟨t₁, hrotate, h₁, hstill⟩ := hplace.rotateTo
    have h₁' : Stands t₁ (plug (⟨d, z', r⟩ :: ⟨d, y, B⟩ :: fs) (make d x A u)) := h₁
    obtain ⟨t', houter, h', hsame, hleaf⟩ := outerTurn_spec h₁' (by rw [ptr_make]; exact hx.1)
    refine ⟨t', z', make d x A u, r, ?_, by rw [ptr_make]; exact hx.1, h', hstill.toSame.trans hsame,
      fun hblack => hleaf (hstill.leaf.trans hblack), Or.inr ⟨rfl, rfl, rfl, rfl⟩⟩
    simp only [rotateCollision, innerTurn, hx.2, Cell.of_child, if_true, hrotate, Option.bind_eq_bind, Option.bind_some]
    rw [ptr_make] at houter ⊢
    exact houter

/-- **A turn of the loop**: either the clash goes up, or it is no more. -/
theorem fixInsertTurn_spec (h : Stands t (plug (f :: g :: fs) (make g.side x u r))) :
    (∃ t', t.fixInsertTurn x.1 f.x.1 g.x.1 = some (g.x.1, t') ∧
      Stands t' (plug fs (make g.side (painted .RED g.x) (make f.side (painted .BLACK f.x) (make g.side x u r) f.far)
        (paint .BLACK g.far))) ∧ Same t t' ∧ (LeafBlack t → LeafBlack t') ∧ (LeafBlack t → RedRoot IsRed g.far)) ∨
    ∃ t' top T A', t.fixInsertTurn x.1 f.x.1 g.x.1 = some (ptr T, t') ∧ ptr T ≠ LEAF ∧
      Stands t' (plug fs (make g.side (painted .BLACK top) T (make g.side (painted .RED g.x) A' g.far))) ∧ Same t t' ∧
      (LeafBlack t → LeafBlack t') ∧ (LeafBlack t → ¬ RedRoot IsRed g.far) ∧
      (f.side = g.side ∧ top = f.x ∧ T = make g.side x u r ∧ A' = f.far ∨
        f.side = g.side.other ∧ top = x ∧ T = make g.side f.x f.far u ∧ A' = r) := by
  have hparent : Stands t (plug (g :: fs) (make f.side f.x (make g.side x u r) f.far)) := h
  have hgcell := hparent.frame
  have hne := hparent.far_ne (by rw [ptr_make]; exact h.frame.1)
  rw [ptr_make] at hgcell hne
  have hside : t.fixInsertTurn x.1 f.x.1 g.x.1 = t.fixInsertSide g.side x.1 f.x.1 g.x.1 := by
    unfold fixInsertTurn
    rw [hgcell.2, Option.bind_eq_bind, Option.bind_some]
    cases hd : g.side with
    | left => rw [Cell.of, if_neg hne, if_pos rfl]
    | right => rw [Cell.of, if_pos rfl]
  -- the uncle
  have huncle : Stands t (plug (⟨g.side.other, g.x, f.fill (make g.side x u r)⟩ :: fs) g.far) := by
    rw [plug_cons, fill_other]
    exact h
  obtain ⟨n, hn, -, hcolor⟩ := huncle.color
  rw [hside]
  simp only [fixInsertSide, hgcell.2, Cell.of_child_other, hn, Option.bind_eq_bind, Option.bind_some]
  cases hred : n.value.color with
  | RED =>
    left
    obtain ⟨t', hrecolor, h', hsame, hleaf⟩ := recolorCollision_spec h
    exact ⟨t', hrecolor, h', hsame, hleaf, fun hblack => (hcolor fun _ => hblack).1 hred⟩
  | BLACK =>
    right
    obtain ⟨t', top, T, A', hrotate, hT, h', hsame, hleaf, hshape⟩ := rotateCollision_spec (e := f.side) (A := f.far)
      (d := g.side) (B := g.far) h
    refine ⟨t', top, T, A', hrotate, hT, h', hsame, hleaf, fun hblack hroot => ?_, hshape⟩
    have := (hcolor fun _ => hblack).2 hroot
    rw [hred] at this
    cases this

/-- The root is painted black at the end. -/
theorem balanced_paint {W : Bin (TreeNode K)} (hcalm : ∀ x l r, W = .node x l r → Calm IsRed l ∧ Calm IsRed r)
    (hblack : ∃ n, Black IsRed n W) : Balanced IsRed (paint .BLACK W) := by
  obtain ⟨n, hn⟩ := hblack
  cases W with
  | leaf => exact ⟨trivial, not_false, n, hn⟩
  | node x l r =>
    have hpainted := not_isRed x
    obtain ⟨hl, hr⟩ := hcalm x l r rfl
    refine ⟨⟨fun hred => absurd hred hpainted, hl, hr⟩, hpainted, ?_⟩
    cases hn with
    | red _ hbl hbr => exact ⟨n + 1, .black hpainted hbl hbr⟩
    | @black m _ _ _ _ hbl hbr => exact ⟨m + 1, .black hpainted hbl hbr⟩

/-- The parent of what is at a place. -/
theorem Stands.parent (h : Stands t (plug fs T)) (hT : ptr T ≠ LEAF) : ∃ n, t.node (ptr T) = some n ∧ n.parent = up fs := by
  cases T with
  | leaf => exact absurd rfl hT
  | node x l r => exact ⟨_, (Stands.cell (d := .left) h).2, rfl⟩

/-- **The end of the loop**, when the parent is black or there is no grandparent. -/
theorem fixInsertLoop_exit (h : Stands t (plug fs T)) (hT : ptr T ≠ LEAF)
    (hfs : ∀ f g gs, fs = f :: g :: gs → ¬ IsRed f.x) (turns : ℕ) :
    ∃ t', fixInsertLoop (turns + 1) (ptr T) t = some t' ∧ Stands t' (paint .BLACK (plug fs T)) ∧ Same t t' ∧
      (LeafBlack t → LeafBlack t') := by
  obtain ⟨n, hn, hparent⟩ := h.parent hT
  have hcond : ∃ p, t.node (up fs) = some p ∧ ¬ (p.value.color = .RED ∧ p.parent ≠ LEAF) := by
    match fs with
    | [] =>
      obtain ⟨c, hc⟩ := h.leaf
      exact ⟨_, hc, fun hp => hp.2 rfl⟩
    | [f] =>
      exact ⟨_, h.frame.2, fun hp => hp.2 (Cell.of_parent ..)⟩
    | f :: g :: gs =>
      refine ⟨_, h.frame.2, fun hp => hfs f g gs rfl ?_⟩
      have hred := hp.1
      rw [Cell.of_value] at hred
      exact hred
  obtain ⟨p, hp, hcond⟩ := hcond
  have hwhole : Stands t (plug [] (plug fs T)) := h
  obtain ⟨t', hset, h', hsame, hleaf⟩ := hwhole.setColor .BLACK
  refine ⟨t', ?_, h', hsame, hleaf fun _ => rfl⟩
  rw [fixInsertLoop, hn, Option.bind_eq_bind, Option.bind_some, hparent, hp, Option.bind_some, if_neg hcond, h.root]
  exact hset

/-- What the end of the loop leaves. -/
theorem balanced_of_clash (h : Clash IsRed fs T) (hfs : ∀ f g gs, fs = f :: g :: gs → ¬ IsRed f.x) :
    Balanced IsRed (paint .BLACK (plug fs T)) := by
  refine balanced_paint (fun x l r hW => ?_) h.black
  have hcalm : ∀ W, plug fs T = W → Calm IsRed W → Calm IsRed l ∧ Calm IsRed r := by
    rintro W rfl hW'
    rw [hW] at hW'
    exact hW'.2
  match fs with
  | [] => exact hcalm _ rfl h.calm
  | [f] =>
    -- a red root and its red child: the root is painted
    obtain ⟨-, hfar, -⟩ := h.above
    obtain ⟨d, y, far⟩ := f
    cases d with
    | left =>
      cases hW
      exact ⟨h.calm, hfar⟩
    | right =>
      cases hW
      exact ⟨hfar, h.calm⟩
  | f :: g :: gs =>
    refine hcalm _ rfl (h.calm_of_black fun f' gs' hfs' => ?_)
    cases hfs'
    exact hfs f g gs rfl

theorem balanced_of_calm {W : Bin (TreeNode K)} (hcalm : Calm IsRed W) (hblack : ∃ n, Black IsRed n W) :
    Balanced IsRed (paint .BLACK W) := by
  refine balanced_paint (fun x l r hW => ?_) hblack
  rw [hW] at hcalm
  exact hcalm.2

/-- The keys below a node, whatever its colour. -/
theorem keys_make_congr (d : Side) {s s' u u' : Bin (TreeNode K)} (hx : (x.1, x.2.keyValue) = (y.1, y.2.keyValue))
    (hs : keys s = keys s') (hu : keys u = keys u') : keys (make d x s u) = keys (make d y s' u') := by
  unfold keys at hs hu ⊢
  cases d
  · simp only [make, inorder_node, List.map_append, List.map_cons, hx, hs, hu]
  · simp only [make, inorder_node, List.map_append, List.map_cons, hx, hs, hu]

theorem keys_rotate (d : Side) (x y : TreeNode K) (s u r : Bin (TreeNode K)) :
    keys (make d y (make d x s u) r) = keys (make d x s (make d y u r)) := congrArg (List.map _) (inorder_rotate d x y s u r)

/-- A red root is painted. -/
theorem paint_red (hroot : RedRoot IsRed T) (hcalm : Calm IsRed T) : Calm IsRed (paint .BLACK T) ∧
    ¬ RedRoot IsRed (paint .BLACK T) ∧ ∀ n, Black IsRed n T → Black IsRed (n + 1) (paint .BLACK T) := by
  cases T with
  | leaf => exact absurd hroot not_false
  | node x l r =>
    have hpainted := not_isRed x
    refine ⟨⟨fun hred => absurd hred hpainted, hcalm.2⟩, hpainted, fun n hn => ?_⟩
    have hx : IsRed x := hroot
    obtain ⟨hl, hr⟩ := (black_make_red (d := .left) hx).1 hn
    exact .black hpainted hl hr

/-- **`fix_insert_collisions`** keeps the nodes in order, and if no deletion was made, it balances the tree. -/
theorem fixInsertLoop_spec (turns : ℕ) (h : Stands t (plug fs (make e x l r))) (hturns : fs.length < turns) :
    ∃ t' W, fixInsertLoop turns x.1 t = some t' ∧ Stands t' W ∧ keys W = keys (plug fs (make e x l r)) ∧ Same t t' ∧
      (LeafBlack t → LeafBlack t') ∧
      (LeafBlack t → IsRed x → Clash IsRed fs (make e x l r) → Balanced IsRed W) := by
  induction turns using Nat.strong_induction_on generalizing t fs e x l r with
  | _ turns ih =>
    obtain ⟨turns, rfl⟩ : ∃ k, turns = k + 1 := ⟨turns - 1, by omega⟩
    have hx := h.cell
    by_cases hfs : ∀ f g gs, fs = f :: g :: gs → ¬ IsRed f.x
    · obtain ⟨t', hloop, h', hsame, hleaf⟩ := fixInsertLoop_exit h (by rw [ptr_make]; exact hx.1) hfs turns
      rw [ptr_make] at hloop
      exact ⟨t', _, hloop, h', keys_paint _ _, hsame, hleaf, fun _ _ hclash => balanced_of_clash hclash hfs⟩
    · push Not at hfs
      obtain ⟨f, g, gs, rfl, hf⟩ := hfs
      -- the sides of the children are counted from the side of the parent
      obtain ⟨u, v, huv⟩ : ∃ u v, make e x l r = make g.side x u v := by
        cases e
        · exact exists_make g.side x l r
        · exact exists_make g.side x r l
      rw [huv] at h ⊢
      have hparent : Stands t (plug (g :: gs) (f.fill (make g.side x u v))) := h
      have hfcell := h.frame.2
      have hg := hparent.frame.1
      rw [up_cons] at hfcell
      rw [fixInsertLoop, hx.2, Option.bind_eq_bind, Option.bind_some, Cell.of_parent, up_cons, hfcell, Option.bind_some,
        Cell.of_value, Cell.of_parent, if_pos ⟨hf, hg⟩]
      rcases fixInsertTurn_spec h with ⟨t', hturn, h', hsame, hleaf, hred⟩ |
        ⟨t', top, T, A', hturn, hT, h', hsame, hleaf, hblack, hshape⟩
      · rw [List.length_cons, List.length_cons] at hturns
        obtain ⟨t'', W, hloop, hW, hkeys, hsame', hleaf', hbalanced⟩ := ih turns (by omega) h' (by omega)
        refine ⟨t'', W, ?_, hW, ?_, hsame.trans hsame', fun hb => hleaf' (hleaf hb), fun hb _ hclash => ?_⟩
        · rw [hturn, Option.bind_eq_bind, Option.bind_some]
          exact hloop
        · rw [hkeys, plug_cons, plug_cons]
          refine keys_plug_congr gs (keys_make_congr _ rfl (keys_make_congr _ rfl rfl rfl) (keys_paint _ _))
        · obtain ⟨-, -, -, hcalm, -⟩ := hclash.black_granpa hf
          obtain ⟨hfar, hroot, hblack⟩ := paint_red (hred hb) hcalm
          exact hbalanced (hleaf hb) rfl (hclash.recolored hf (not_isRed f.x) (isRed g.x) ⟨hfar, hroot⟩ hblack)
      · rw [List.length_cons, List.length_cons] at hturns
        obtain ⟨k, rfl⟩ : ∃ k, turns = k + 1 := ⟨turns - 1, by omega⟩
        have hplace : Stands t' (plug (⟨g.side, painted .BLACK top, make g.side (painted .RED g.x) A' g.far⟩ :: gs) T) := h'
        have hexit : ∀ f' g' gs', Frame.mk g.side (painted .BLACK top) (make g.side (painted .RED g.x) A' g.far) :: gs =
            f' :: g' :: gs' → ¬ IsRed f'.x := by
          rintro f' g' gs' he
          cases he
          exact not_isRed top
        obtain ⟨t'', hloop, hW, hsame', hleaf'⟩ := fixInsertLoop_exit hplace hT hexit k
        obtain ⟨fd, fx, ffar⟩ := f
        refine ⟨t'', _, ?_, hW, ?_, hsame.trans hsame', fun hb => hleaf' (hleaf hb), fun hb hxred hclash => ?_⟩
        · rw [hturn, Option.bind_eq_bind, Option.bind_some]
          exact hloop
        · rw [keys_paint, plug_cons, plug_cons, plug_cons]
          refine keys_plug_congr gs ?_
          obtain ⟨d, z, far⟩ := g
          simp only [Frame.fill] at hshape ⊢
          rcases hshape with ⟨rfl, rfl, rfl, rfl⟩ | ⟨rfl, rfl, rfl, rfl⟩
          · rw [keys_rotate fd top z]
            exact keys_make_congr fd rfl rfl (keys_make_congr fd rfl rfl rfl)
          · rw [make_other]
            have hinner : keys (make d z (make d fx ffar (make d top u A')) far) =
                keys (make d z (make d top (make d fx ffar u) A') far) :=
              keys_make_congr d rfl (keys_rotate ..).symm rfl
            rw [hinner, keys_rotate d top z]
            exact keys_make_congr d rfl rfl (keys_make_congr d rfl rfl rfl)
        · rcases hshape with ⟨rfl, rfl, rfl, rfl⟩ | ⟨rfl, rfl, rfl, rfl⟩
          · obtain ⟨hcalm, hblack'⟩ := hclash.outer hf (not_isRed _) (isRed g.x) (hblack hb)
            exact balanced_of_calm hcalm hblack'
          · obtain ⟨hcalm, hblack'⟩ := hclash.inner hf hxred (not_isRed _) (isRed g.x) (hblack hb)
            exact balanced_of_calm hcalm hblack'

end PicoTree

end Vdetelweb
