import Vdetelweb.Proof.TreeSearch

/-!
# Deletions from the trees of the stack

A node with one child at most is replaced by the child (`spliceOut_spec`), and another by the next node,
which is taken out of its place (`takeMin_spec`) and put there (`putMin_spec`). What
`fix_delete_collisions` does after that keeps the nodes in order, whatever the colours are
(`fixDeleteLoop_spec`). The node is not in the tree any more, but it is still in memory, until it is
freed.
-/

namespace Vdetelweb

open Function Trees Bin

variable {K : Type}

namespace PicoTree

variable {t t' : PicoTree K} {fs gs : List (Frame (TreeNode K))} {T l r s u Y : Bin (TreeNode K)} {x y m : TreeNode K}
  {d e : Side} {a p : ℕ} {n : PicoTreeNode K}

theorem Only.mono {l l' : List ℕ} (h : Only l t t') (hl : ∀ a ∈ l, a ∈ l') : Only l' t t' :=
  ⟨h.toSame, fun a ha => h.node a fun hal => ha (hl a hal)⟩

theorem Only.trans {t'' : PicoTree K} {l : List ℕ} (h : Only l t t') (h' : Only l t' t'') : Only l t t'' :=
  ⟨h.toSame.trans h'.toSame, fun a ha => (h'.node a ha).trans (h.node a ha)⟩

/-! ## `switchNodes` -/

/-- **`switchNodes`**: another tree comes to the place of a node. -/
theorem switchNodes_spec (hfs : Above t.node t.root a fs) (hnodup : (frameAddrs fs).Nodup) (ha : a ∉ frameAddrs fs)
    (hne : a ≠ LEAF) (hn : t.node a = some n) (hparent : n.parent = up fs) (hT : Rep t.node p T)
    (hTnodup : (addrs T).Nodup) (hapart : ∀ b ∈ addrs T, b ∉ frameAddrs fs) :
    ∃ t', t.switchNodes a (ptr T) = some t' ∧ Above t'.node t'.root (ptr T) fs ∧ Rep t'.node (up fs) T ∧
      Only (frameAddrs fs ++ addrs T) t t' := by
  obtain ⟨t₁, hreplace, hfs₁, honly₁⟩ := replaceChild_spec hfs hnodup ha hne .left (ptr T)
  have hn₁ : t₁.node a = some n := (honly₁.node a ha).trans hn
  have hT₁ : Rep t₁.node p T := hT.congr fun b hb => honly₁.node b (hapart b hb)
  obtain ⟨t₂, hadopt, hT₂, hroot₂, honly₂⟩ := adopt_spec hT₁ hTnodup (up fs)
  refine ⟨t₂, ?_, ?_, hT₂, (honly₁.mono ?_).trans (honly₂.mono ?_)⟩
  · simp only [switchNodes, hn, hparent, hne, and_false, if_false, hreplace, hn₁, hadopt, Option.bind_eq_bind,
      Option.bind_some]
  · rw [hroot₂]
    exact hfs₁.congr fun b hb => honly₂.node b fun hbT => hapart b hbT hb
  · exact fun b hb => List.mem_append_left _ hb
  · exact fun b hb => List.mem_append_right _ hb

/-- **A node with one child at most** is replaced by the child. -/
theorem spliceOut_spec (h : Stands t (plug fs (make e x .leaf r))) :
    ∃ t', t.switchNodes x.1 (ptr r) = some t' ∧ Stands t' (plug fs r) ∧ Still t t' ∧ t'.node x.1 = t.node x.1 := by
  obtain ⟨habove, hrep, hframes, hnodup, hapart⟩ := h.at_place
  obtain ⟨hne, hcell, -, hr⟩ := rep_make.1 hrep
  obtain ⟨-, hxr, -, hrnodup, -⟩ := nodup_addrs_make.1 hnodup
  rw [ptr_make] at habove
  have hrapart : ∀ b ∈ addrs r, b ∉ frameAddrs fs := fun b hb => hapart b (mem_addrs_make.2 (Or.inr (Or.inr hb)))
  have hxfs : x.1 ∉ frameAddrs fs := hapart _ (mem_addrs_make.2 (Or.inl rfl))
  obtain ⟨t', hswitch, habove', hr', honly⟩ := switchNodes_spec habove hframes hxfs hne hcell (Cell.of_parent ..) hr
    hrnodup hrapart
  have hleaf : t'.node LEAF = t.node LEAF := by
    refine honly.node LEAF fun hmem => ?_
    rcases List.mem_append.1 hmem with hmem | hmem
    · exact habove.ne_zero hmem rfl
    · exact hr.ne_zero hmem rfl
  refine ⟨t', hswitch, stands_plug habove' hr' (distinct_iff.2 ⟨hframes, hrnodup, hrapart⟩) ?_, ⟨honly.toSame, hleaf⟩,
    honly.node x.1 fun hmem => ?_⟩
  · rw [hleaf]
    exact h.leaf
  · rcases List.mem_append.1 hmem with hmem | hmem
    · exact hxfs hmem
    · exact hxr hmem

/-! ## `pico_tree_delete_node` -/

/-- The node at the end of a tree, at its place. -/
theorem endLoop_spec (d : Side) {turns : ℕ} (h : Stands t (plug fs T)) (hT : T ≠ .leaf) (hturns : T.height < turns) :
    ∃ gs x r, t.endLoop d turns (ptr T) = some x.1 ∧ T = plug gs (make d x .leaf r) ∧ ∀ g ∈ gs, g.side = d := by
  induction turns generalizing fs T with
  | zero => exact absurd hturns (Nat.not_lt_zero _)
  | succ turns ih =>
    cases T with
    | leaf => exact absurd rfl hT
    | node x l r =>
      obtain ⟨s, u, hsu⟩ := exists_make d x l r
      rw [hsu] at h hturns ⊢
      rw [height_make] at hturns
      have hchild : Stands t (plug (⟨d, x, u⟩ :: fs) s) := h
      have hcell := h.cell
      rw [ptr_make, endLoop, hcell.2, Option.bind_eq_bind, Option.bind_some, Cell.of_child]
      by_cases hleaf : ptr s = LEAF
      · rw [if_pos hleaf]
        obtain ⟨-, hrep, -⟩ := hchild.at_place
        rw [hrep.eq_leaf hleaf]
        exact ⟨[], x, u, rfl, rfl, fun g hg => absurd hg List.not_mem_nil⟩
      · rw [if_neg hleaf]
        have hne : s ≠ .leaf := by
          rintro rfl
          exact hleaf rfl
        obtain ⟨gs, y, v, hloop, hs, hgs⟩ := ih hchild hne (by omega)
        refine ⟨gs ++ [⟨d, x, u⟩], y, v, hloop, ?_, fun g hg => ?_⟩
        · rw [plug_append, ← hs]
          rfl
        · rcases List.mem_append.1 hg with hg | hg
          · exact hgs g hg
          · rw [List.mem_singleton.1 hg]

/-- What is left of the node `d` and of the next one, `m`, when this was taken out of its place. -/
structure Taken (t : PicoTree K) (fs : List (Frame (TreeNode K))) (x m : TreeNode K) (l Y : Bin (TreeNode K)) : Prop where
  above : Above t.node t.root x.1 fs
  cell : ∃ q, t.node x.1 = some ⟨up fs, ptr l, q, x.2⟩
  near : Rep t.node x.1 l
  min : ∃ p, Rep t.node p (.node m .leaf Y)

/-- An assignment that changes nothing. -/
theorem setParent_self (hn : t.node a = some n) : t.setParent a n.parent = some t := by
  rw [setParent, set_eq hn, ← hn, update_eq_self]

/-- **The next node is taken out of its place.** -/
theorem takeMin_spec (h : Stands t (plug fs (.node x l (plug gs (.node m .leaf Y))))) :
    ∃ t', t.takeMin x.1 m.1 = some t' ∧ Taken t' fs x m l (plug gs Y) ∧ Still t t' := by
  have hplace : Stands t (plug (gs ++ ⟨.right, x, l⟩ :: fs) (make .left m .leaf Y)) := by
    rw [plug_append]
    exact h
  have hm := hplace.cell
  obtain ⟨-, hrep, -, hnodup, hapart⟩ := hplace.at_place
  obtain ⟨-, hmY, -⟩ := nodup_addrs_make.1 hnodup
  have hmframes := hapart m.1 (mem_addrs_make.2 (Or.inl rfl))
  have hright : (Cell.of .left (up (gs ++ ⟨.right, x, l⟩ :: fs)) (ptr (.leaf : Bin (TreeNode K))) (ptr Y) m.2).rightChild =
      ptr Y := rfl
  unfold takeMin
  rw [hm.2, Option.bind_eq_bind, Option.bind_some, Cell.of_parent, hright]
  by_cases hcase : up (gs ++ ⟨.right, x, l⟩ :: fs) = x.1 ∧ ptr Y ≠ LEAF
  · -- the next node is the child, and its own child has it for a parent already
    rw [if_pos hcase]
    obtain ⟨hup, hY⟩ := hcase
    cases gs with
    | nil =>
      obtain ⟨habove, hnode, -⟩ := h.at_place
      obtain ⟨hx, hcell, hl, hmin⟩ := hnode
      obtain ⟨y, a, b, rfl⟩ : ∃ y a b, Y = .node y a b := by
        cases Y with
        | leaf => exact absurd rfl hY
        | node y a b => exact ⟨y, a, b, rfl⟩
      have hycell : t.node y.1 = some ⟨m.1, ptr a, ptr b, y.2⟩ := hmin.2.2.2.2.1
      exact ⟨t, setParent_self hycell, ⟨habove, ⟨_, hcell⟩, hl, x.1, hmin⟩, .refl t, rfl⟩
    | cons g gs =>
      have hg : Stands t (plug (gs ++ ⟨.right, x, l⟩ :: fs) (g.fill (make .left m .leaf Y))) := hplace
      obtain ⟨-, -, -, -, hgapart⟩ := hg.at_place
      refine absurd ?_ (hgapart g.x.1 (mem_addrs_make.2 (Or.inl rfl)))
      rw [List.cons_append, up_cons] at hup
      rw [hup]
      exact mem_frameAddrs_append.2 (Or.inr (mem_frameAddrs_cons.2 (Or.inl rfl)))
  · rw [if_neg hcase]
    obtain ⟨t₁, hswitch, h₁, hstill₁, hm₁⟩ := spliceOut_spec hplace
    rw [hm.2] at hm₁
    have hmnot : m.1 ∉ addrs (plug (gs ++ ⟨.right, x, l⟩ :: fs) Y) := by
      rw [mem_addrs_plug]
      exact fun hmem => hmem.elim hmframes hmY
    have hx₁ : Stands t₁ (plug fs (.node x l (plug gs Y))) := by
      rw [plug_append] at h₁
      exact h₁
    have hmnot' : m.1 ∉ addrs (plug fs (.node x l (plug gs Y))) := by
      rw [plug_append] at hmnot
      exact hmnot
    obtain ⟨habove₁, ⟨hx, hxcell, hl, hY⟩, hframes, hnodup₁, hapart₁⟩ := hx₁.at_place
    obtain ⟨hxl, hxY, -, hYnodup, hlY⟩ := nodup_addrs_make (d := .left).1 hnodup₁
    have hmem : ∀ a, a = x.1 ∨ a ∈ addrs l ∨ a ∈ addrs (plug gs Y) → a ∈ addrs (.node x l (plug gs Y)) :=
      fun a ha => mem_addrs_make (d := .left).2 ha
    rw [mem_addrs_plug, not_or] at hmnot'
    obtain ⟨hmfs, hmx⟩ := hmnot'
    have hmx' : m.1 ≠ x.1 := fun he => hmx (hmem _ (Or.inl he))
    obtain ⟨t₂, hset, hnode₂, hroot₂, honly₂⟩ := set_only hm₁ (Cell.setChild .right (ptr (plug gs Y)))
      (List.mem_singleton_self m.1)
    have hY₂ : Rep t₂.node x.1 (plug gs Y) := by
      rw [hnode₂]
      exact hY.elsewhere (fun hmem' => hmx (hmem _ (Or.inr (Or.inr hmem')))) _
    obtain ⟨t₃, hadopt, hY₃, hroot₃, honly₃⟩ := adopt_spec hY₂ hYnodup m.1
    have hkept : ∀ a, a ≠ m.1 → a ∉ addrs (plug gs Y) → t₃.node a = t₁.node a := fun a ham haY => by
      rw [honly₃.node a haY, honly₂.node a (List.mem_singleton.not.2 ham)]
    refine ⟨t₃, ?_, ⟨?_, ⟨ptr (plug gs Y), ?_⟩, ?_, up (gs ++ ⟨.right, x, l⟩ :: fs), hm.1, ?_, trivial, hY₃⟩,
      hstill₁.toSame.trans (honly₂.toSame.trans honly₃.toSame), ?_⟩
    · have hxcell' : t₁.node x.1 = some ⟨up fs, ptr l, ptr (plug gs Y), x.2⟩ := hxcell
      simp only [hswitch, hxcell', setChild, hset, hadopt, Option.bind_eq_bind, Option.bind_some]
    · rw [hroot₃, hroot₂]
      refine habove₁.congr fun a ha => hkept a ?_ fun haY => hapart₁ a (hmem a (Or.inr (Or.inr haY))) ha
      rintro rfl
      exact hmfs ha
    · rw [hkept x.1 hmx'.symm hxY, hxcell]
    · refine hl.congr fun a ha => hkept a ?_ (hlY a ha)
      rintro rfl
      exact hmx (hmem _ (Or.inr (Or.inl ha)))
    · rw [honly₃.node m.1 fun haY => hmx (hmem _ (Or.inr (Or.inr haY))), hnode₂, update_self]
      rfl
    · rw [hkept LEAF hm.1.symm fun hmem' => hY.ne_zero hmem' rfl, hstill₁.leaf]

/-- **The next node is put in the place** of the one that is deleted, and gets its colour. -/
theorem putMin_spec (h : Taken t fs x m l Y) (hdistinct : Distinct fs (.node m l Y))
    (hxnot : x.1 ∉ addrs (plug fs (.node m l Y))) (hx : x.1 ≠ LEAF) (hleaf : ∃ color, t.node LEAF = some (leafNode color)) :
    ∃ t', t.putMin x.1 m.1 = some t' ∧ Stands t' (plug fs (.node (painted x.2.color m) l Y)) ∧ Same t t' := by
  obtain ⟨hframes, hnodup, hapart⟩ := distinct_iff.1 hdistinct
  obtain ⟨hml, hmY, hlnodup, hYnodup, hlY⟩ := nodup_addrs_make (d := .left).1 hnodup
  have hmem : ∀ a, a = m.1 ∨ a ∈ addrs l ∨ a ∈ addrs Y → a ∈ addrs (.node m l Y) :=
    fun a ha => mem_addrs_make (d := .left).2 ha
  rw [mem_addrs_plug, not_or] at hxnot
  obtain ⟨hxfs, hxT⟩ := hxnot
  have hxm : x.1 ≠ m.1 := fun he => hxT (hmem _ (Or.inl he))
  have hxl : x.1 ∉ addrs l := fun hmem' => hxT (hmem _ (Or.inr (Or.inl hmem')))
  have hmin : ∀ a, a ∈ addrs (.node m .leaf Y) → a = m.1 ∨ a ∈ addrs Y := by
    intro a ha
    rcases mem_addrs_make (d := .left).1 ha with ha | ha | ha
    · exact Or.inl ha
    · exact absurd ha mem_addrs_leaf
    · exact Or.inr ha
  have hminnodup : (addrs (.node m .leaf Y)).Nodup :=
    nodup_addrs_make (d := .left).2 ⟨mem_addrs_leaf, hmY, List.nodup_nil, hYnodup, fun a ha => absurd ha mem_addrs_leaf⟩
  obtain ⟨q, hxcell⟩ := h.cell
  obtain ⟨p, hmrep⟩ := h.min
  obtain ⟨t₁, hswitch, hfs₁, hm₁, honly₁⟩ := switchNodes_spec h.above hframes hxfs hx hxcell rfl hmrep hminnodup
    (fun b hb => hapart b ((hmin b hb).elim (fun he => hmem b (Or.inl he)) fun hY => hmem b (Or.inr (Or.inr hY))))
  obtain ⟨hm, hmcell₁, -, hY₁⟩ := hm₁
  have hkept₁ : ∀ a, a ∉ frameAddrs fs → a ≠ m.1 → a ∉ addrs Y → t₁.node a = t.node a := by
    intro a hafs ham haY
    refine honly₁.node a fun hmem' => ?_
    rcases List.mem_append.1 hmem' with hmem' | hmem'
    · exact hafs hmem'
    · exact (hmin a hmem').elim ham haY
  have hxcell₁ := (hkept₁ x.1 hxfs hxm fun hY => hxT (hmem _ (Or.inr (Or.inr hY)))).trans hxcell
  obtain ⟨t₂, hset₂, hnode₂, hroot₂, honly₂⟩ := set_only hmcell₁ (Cell.setChild .left (ptr l)) (List.mem_singleton_self m.1)
  have hl₂ : Rep t₂.node x.1 l := by
    refine h.near.congr fun a ha => ?_
    have ham : a ≠ m.1 := ne_of_mem_of_not_mem ha hml
    rw [honly₂.node a (List.mem_singleton.not.2 ham)]
    exact hkept₁ a (hapart a (hmem a (Or.inr (Or.inl ha)))) ham (hlY a ha)
  obtain ⟨t₃, hadopt, hl₃, hroot₃, honly₃⟩ := adopt_spec hl₂ hlnodup m.1
  have hmcell₃ : t₃.node m.1 = some ⟨up fs, ptr l, ptr Y, m.2⟩ := by
    rw [honly₃.node m.1 hml, hnode₂, update_self]
    rfl
  have hxcell₃ : t₃.node x.1 = _ := (honly₃.node x.1 hxl).trans
    ((honly₂.node x.1 (List.mem_singleton.not.2 hxm)).trans hxcell₁)
  have hkept₃ : ∀ a, a ≠ m.1 → a ∉ addrs l → t₃.node a = t₁.node a := fun a ham hal => by
    rw [honly₃.node a hal, honly₂.node a (List.mem_singleton.not.2 ham)]
  have hleaf₃ : t₃.node LEAF = t.node LEAF := by
    rw [hkept₃ LEAF hm.symm fun hmem' => h.near.ne_zero hmem' rfl,
      hkept₁ LEAF (fun hmem' => h.above.ne_zero hmem' rfl) hm.symm fun hmem' => hY₁.ne_zero hmem' rfl]
  -- only the colour is to be assigned
  have hstands₃ : Stands t₃ (plug fs (.node m l Y)) := by
    refine stands_plug ?_ ⟨hm, hmcell₃, hl₃, ?_⟩ hdistinct ?_
    · rw [hroot₃, hroot₂]
      refine hfs₁.congr fun a ha => hkept₃ a ?_ fun hal => hapart a (hmem a (Or.inr (Or.inl hal))) ha
      rintro rfl
      exact hapart _ (hmem _ (Or.inl rfl)) ha
    · exact hY₁.congr fun a ha => hkept₃ a (ne_of_mem_of_not_mem ha hmY) fun hal => hlY a hal ha
    · rw [hleaf₃]
      exact hleaf
  obtain ⟨t₄, hset₄, h₄, hsame₄, -⟩ := hstands₃.setColor x.2.color
  have hsame : Same t t₃ := honly₁.toSame.trans (honly₂.toSame.trans honly₃.toSame)
  refine ⟨t₄, ?_, h₄, hsame.trans hsame₄⟩
  have hptr : ptr (.node m .leaf Y) = m.1 := rfl
  rw [hptr] at hswitch
  simp only [putMin, hswitch, hxcell₁, setChild, hset₂, hadopt, hxcell₃, Option.bind_eq_bind, Option.bind_some]
  exact hset₄

/-- **A node was taken out** of the tree: the others are what they were, in their order. -/
def Without (fs : List (Frame (TreeNode K))) (l r W : Bin (TreeNode K)) : Prop :=
  keys W = (before fs).map (fun x => (x.1, x.2.keyValue)) ++ (keys l ++ keys r) ++
    (after fs).map (fun x => (x.1, x.2.keyValue))

theorem keys_node (x : TreeNode K) (l r : Bin (TreeNode K)) :
    keys (.node x l r) = keys l ++ (x.1, x.2.keyValue) :: keys r := by
  rw [keys, inorder_node, List.map_append, List.map_cons]
  rfl

theorem Without.perm {W : Bin (TreeNode K)} (h : Without fs l r W) (x : TreeNode K) :
    (addrs (plug fs (.node x l r))).Perm (x.1 :: addrs W) := by
  rw [addrs_eq_keys, addrs_eq_keys, ← List.map_cons (f := Prod.fst) (a := (x.1, x.2.keyValue)), h, keys_plug, keys_node]
  refine List.Perm.map _ ?_
  rw [List.append_assoc, List.append_assoc, List.append_assoc, List.append_assoc, List.cons_append, ← List.append_assoc,
    ← List.append_assoc]
  exact List.perm_middle

/-- The frames on the way to the first node of a tree are all on its right. -/
theorem before_of_left (h : ∀ g ∈ gs, g.side = .left) : before gs = [] := by
  induction gs with
  | nil => rfl
  | cons g gs ih =>
    rw [List.forall_mem_cons] at h
    rw [before_cons, ih h.2, Frame.before, h.1]
    rfl

/-- **`pico_tree_delete_node`.** -/
theorem delete_node_spec (h : Stands t (plug fs (.node x l r))) (hr : r ≠ .leaf) (hsize : r.height ≤ t.next) :
    ∃ color t' gs T, t.delete_node x.1 = some (color, ptr T, t') ∧ Stands t' (plug gs T) ∧ Same t t' ∧
      Without fs l r (plug gs T) := by
  have hright : Stands t (plug (⟨.right, x, l⟩ :: fs) r) := h
  obtain ⟨gs, m, Y, hfirst, rfl, hgs⟩ := endLoop_spec .left hright hr (Nat.lt_succ_of_le hsize)
  have hbefore := before_of_left hgs
  have hx := Stands.cell (d := .left) h
  have hm : ∃ q, t.node m.1 = some ⟨q, LEAF, ptr Y, m.2⟩ := by
    have hplace : Stands t (plug (gs ++ ⟨.right, x, l⟩ :: fs) (make .left m .leaf Y)) := by
      rw [plug_append]
      exact h
    exact ⟨_, hplace.cell.2⟩
  obtain ⟨q, hm⟩ := hm
  obtain ⟨t₁, htake, htaken, hstill₁⟩ := takeMin_spec h
  -- the next node has the first key of what is on the right
  have hkeys : keys (plug gs (.node m .leaf Y)) = (m.1, m.2.keyValue) :: keys (plug gs Y) := by
    rw [keys_plug, keys_plug, hbefore, keys_node]
    rfl
  have hwithout : Without fs l (plug gs (.node m .leaf Y)) (plug fs (.node (painted x.2.color m) l (plug gs Y))) := by
    rw [Without, keys_plug, keys_node, hkeys]
    rfl
  have hperm := hwithout.perm x
  have hnodup := hperm.nodup_iff.1 h.nodup
  rw [List.nodup_cons] at hnodup
  have haddrs : addrs (plug fs (.node (painted x.2.color m) l (plug gs Y))) = addrs (plug fs (.node m l (plug gs Y))) := by
    rw [addrs_eq_keys, addrs_eq_keys]
    exact congrArg _ (keys_plug_congr fs (by rw [keys_node, keys_node]; rfl))
  rw [haddrs] at hnodup
  have hleaf₁ : ∃ color, t₁.node LEAF = some (leafNode color) := by
    rw [hstill₁.leaf]
    exact h.leaf
  obtain ⟨t₂, hput, h₂, hsame₂⟩ := putMin_spec htaken hnodup.2 hnodup.1 hx.1 hleaf₁
  refine ⟨m.2.color, t₂, gs ++ ⟨.right, painted x.2.color m, l⟩ :: fs, Y, ?_, ?_, hstill₁.toSame.trans hsame₂, ?_⟩
  · have hxcell : t.node x.1 = some ⟨up fs, ptr l, ptr (plug gs (make .left m .leaf Y)), x.2⟩ := hx.2
    simp only [delete_node, hxcell, firstNode, hfirst, hm, htake, hput, Option.bind_eq_bind, Option.bind_some]
  · rw [plug_append]
    exact h₂
  · rw [plug_append]
    exact hwithout

/-- **`pico_tree_delete_check_switch`** takes the node out of the tree. -/
theorem delete_check_switch_spec (h : Stands t (plug fs (.node x l r))) (hsize : r.height ≤ t.next) :
    ∃ color t' gs T, t.delete_check_switch x.1 = some (color, ptr T, t') ∧ Stands t' (plug gs T) ∧ Same t t' ∧
      Without fs l r (plug gs T) := by
  have hx : t.node x.1 = some ⟨up fs, ptr l, ptr r, x.2⟩ := (Stands.cell (d := .left) h).2
  obtain ⟨-, ⟨-, -, hl, hr⟩, -⟩ := h.at_place
  unfold delete_check_switch
  rw [hx, Option.bind_eq_bind, Option.bind_some]
  dsimp only
  by_cases hleft : ptr l = LEAF
  · obtain rfl := hl.eq_leaf hleft
    have hplace : Stands t (plug fs (make .left x .leaf r)) := h
    obtain ⟨t', hswitch, h', hstill, -⟩ := spliceOut_spec hplace
    refine ⟨x.2.color, t', fs, r, ?_, h', hstill.toSame, ?_⟩
    · rw [if_pos hleft, hswitch]
      rfl
    · rw [Without, keys_plug]
      rfl
  · by_cases hright : ptr r = LEAF
    · obtain rfl := hr.eq_leaf hright
      have hplace : Stands t (plug fs (make .right x .leaf l)) := h
      obtain ⟨t', hswitch, h', hstill, -⟩ := spliceOut_spec hplace
      refine ⟨x.2.color, t', fs, l, ?_, h', hstill.toSame, ?_⟩
      · rw [if_neg hleft, if_pos hright, hswitch]
        rfl
      · rw [Without, keys_plug]
        simp [keys]
    · rw [if_neg hleft, if_neg hright]
      refine delete_node_spec h ?_ hsize
      rintro rfl
      exact hright rfl

/-! ## `fix_delete_collisions` -/

variable {B S : Bin (TreeNode K)} {hs : List (Frame (TreeNode K))}

/-- A node of the subtree on the other side is painted. -/
theorem paint_within (h : Stands t (plug fs (make d x T B))) (hB : B = plug hs S) (color : Color) :
    ∃ t', t.setColor (ptr S) color = some t' ∧ Stands t' (plug fs (make d x T (plug hs (paint color S)))) ∧ Same t t' := by
  have hplace : Stands t (plug (hs ++ ⟨d.other, x, T⟩ :: fs) S) := by
    rw [plug_append, plug_cons, ← hB, fill_other]
    exact h
  obtain ⟨t', hset, h', hsame, -⟩ := hplace.setColor color
  rw [plug_append, plug_cons, fill_other] at h'
  exact ⟨t', hset, h', hsame⟩

/-- **A rotation**, if there is a child to come up. -/
theorem Stands.rotateOr (h : Stands t (plug fs (make d x T B))) :
    ∃ t', t.rotateTo d x.1 = some t' ∧ Same t t' ∧
      (B = .leaf ∧ t' = t ∨ ∃ y u r, B = make d y u r ∧ Stands t' (plug fs (make d y (make d x T u) r))) := by
  cases B with
  | leaf =>
    obtain ⟨c, hc⟩ := h.leaf
    exact ⟨t, rotateTo_leaf h.cell.2 hc, .refl t, Or.inl ⟨rfl, rfl⟩⟩
  | node y l r =>
    obtain ⟨u, v, huv⟩ := exists_make d y l r
    rw [huv] at h ⊢
    obtain ⟨t', hrotate, h', hstill⟩ := h.rotateTo
    exact ⟨t', hrotate, hstill.toSame, Or.inr ⟨y, u, v, rfl, h'⟩⟩

/-- The children of what is at a place, which may be `LEAF`. -/
theorem Stands.children (h : Stands t (plug fs T)) (d : Side) : ∃ n near far, t.node (ptr T) = some n ∧
    t.node (n.child d) = some near ∧ t.node (n.child d.other) = some far := by
  cases T with
  | leaf =>
    obtain ⟨c, hc⟩ := h.leaf
    refine ⟨_, leafNode c, leafNode c, hc, ?_, ?_⟩ <;> cases d <;> exact hc
  | node x l r =>
    obtain ⟨s, u, hsu⟩ := exists_make d x l r
    rw [hsu] at h ⊢
    have hnear : Stands t (plug (⟨d, x, u⟩ :: fs) s) := h
    have hfar : Stands t (plug (⟨d.other, x, s⟩ :: fs) u) := by
      rw [plug_cons, fill_other]
      exact h
    obtain ⟨near, hnear, -⟩ := hnear.color
    obtain ⟨far, hfar, -⟩ := hfar.color
    rw [ptr_make]
    refine ⟨_, near, far, h.cell.2, ?_, ?_⟩
    · rw [Cell.of_child]
      exact hnear
    · rw [Cell.of_child_other]
      exact hfar

/-- **A red sibling** comes up. -/
theorem redSibling_spec (h : Stands t (plug (⟨d, x, B⟩ :: fs) T)) (hT : ptr T ≠ LEAF) :
    ∃ t' x' B' fs', t.redSibling d (ptr T) x.1 (ptr B) = some (ptr B', t') ∧
      Stands t' (plug (⟨d, x', B'⟩ :: fs') T) ∧ Same t t' ∧ x'.1 = x.1 ∧
      keys (plug (⟨d, x', B'⟩ :: fs') T) = keys (plug (⟨d, x, B⟩ :: fs) T) ∧
      (fs'.length ≤ fs.length ∨ x'.2.color = .RED) := by
  have hsibling : Stands t (plug (⟨d.other, x, T⟩ :: fs) B) := by
    rw [plug_cons, fill_other]
    exact h
  obtain ⟨tmp, htmp, -⟩ := hsibling.color
  unfold redSibling
  rw [htmp, Option.bind_eq_bind, Option.bind_some]
  by_cases hred : tmp.value.color = .RED
  · rw [if_pos hred]
    obtain ⟨t₁, hset₁, h₁, hsame₁, -⟩ := hsibling.setColor .BLACK
    have hplace₁ : Stands t₁ (plug fs (make d x T (paint .BLACK B))) := by
      rw [plug_cons, fill_other] at h₁
      exact h₁
    obtain ⟨t₂, hset₂, h₂, hsame₂, -⟩ := hplace₁.setColor .RED
    rw [ptr_make] at hset₂
    rw [paint_make] at h₂
    obtain ⟨t₃, hrotate, hsame₃, hshape⟩ := h₂.rotateOr
    rw [painted_fst] at hrotate
    have hsame := hsame₁.trans (hsame₂.trans hsame₃)
    -- the sibling then
    have hnew : ∃ B' fs', Stands t₃ (plug (⟨d, painted .RED x, B'⟩ :: fs') T) ∧
        keys (plug (⟨d, painted .RED x, B'⟩ :: fs') T) = keys (plug (⟨d, x, B⟩ :: fs) T) := by
      rcases hshape with ⟨hB, rfl⟩ | ⟨y, u, r, hB, h₃⟩
      · refine ⟨paint .BLACK B, fs, h₂, keys_plug_congr fs (keys_make_congr d rfl rfl (keys_paint ..))⟩
      · refine ⟨u, ⟨d, y, r⟩ :: fs, h₃, keys_plug_congr fs ?_⟩
        refine (keys_rotate ..).trans (keys_make_congr d rfl rfl ?_)
        rw [← hB, keys_paint]
    obtain ⟨B', fs', h₃, hkeys⟩ := hnew
    obtain ⟨n, hn, hparent⟩ := h₃.parent hT
    have hp := h₃.frame.2
    refine ⟨t₃, painted .RED x, B', fs', ?_, h₃, hsame, rfl, hkeys, Or.inr rfl⟩
    rw [up_cons] at hparent
    simp only [hset₁, hset₂, hrotate, hn, hparent, hp, Cell.of_child_other, Option.bind_eq_bind, Option.bind_some]
  · rw [if_neg hred]
    exact ⟨t, x, B, fs, rfl, h, .refl t, rfl, rfl, Or.inl le_rfl⟩

theorem blackChildren_some (h : Stands t (plug fs T)) (d : Side) : ∃ b, t.blackChildren d (ptr T) = some b := by
  obtain ⟨n, near, far, hn, hnear, hfar⟩ := h.children d
  unfold blackChildren
  rw [hn, Option.bind_eq_bind, Option.bind_some, hnear, Option.bind_some, hfar]
  split
  · exact ⟨_, rfl⟩
  · exact ⟨_, rfl⟩

theorem rotateTo_LEAF (h : Stands t T) (d : Side) : t.rotateTo d LEAF = some t := by
  obtain ⟨c, hc⟩ := h.leaf
  have hcell : t.node LEAF = some (.of d LEAF LEAF LEAF ⟨none, c⟩) := by
    rw [hc]
    cases d <;> rfl
  exact rotateTo_leaf hcell hc

/-- **The rotation of the sibling**, which goes on with a node of the same subtree. -/
theorem farBlack_spec (h : Stands t (plug fs (make d x T B))) :
    ∃ t' hs S, t.farBlack d (ptr B) = some (ptr S, t') ∧ Stands t' (plug fs (make d x T (plug hs S))) ∧
      keys (plug hs S) = keys B ∧ Same t t' := by
  have hsibling : Stands t (plug (⟨d.other, x, T⟩ :: fs) B) := by
    rw [plug_cons, fill_other]
    exact h
  obtain ⟨n, near, far, hn, hnear, hfar⟩ := hsibling.children d
  unfold farBlack
  rw [hn, Option.bind_eq_bind, Option.bind_some, hfar, Option.bind_eq_bind, Option.bind_some]
  by_cases hblack : far.value.color = .BLACK
  · rw [if_pos hblack]
    cases B with
    | leaf =>
      have hchild : n.child d = LEAF := by
        obtain ⟨c, hc⟩ := h.leaf
        rw [ptr_leaf] at hn
        rw [Option.some.inj (hn.symm.trans hc)]
        cases d <;> rfl
      obtain ⟨t₁, hset₁, h₁, hsame₁, -⟩ := hsibling.setColor .BLACK
      obtain ⟨t₂, hset₂, h₂, hsame₂, -⟩ := h₁.setColor .RED
      obtain ⟨c, hc⟩ := h₂.leaf
      rw [ptr_leaf] at hset₁
      rw [ptr_paint, ptr_leaf] at hset₂
      have hleaf : (leafNode c : PicoTreeNode K).child d.other = LEAF := by cases d <;> rfl
      refine ⟨t₂, [], .leaf, ?_, ?_, rfl, hsame₁.trans hsame₂⟩
      · simp only [hchild, hset₁, ptr_leaf, hset₂, rotateTo_LEAF h₂ d.other, Option.bind_some]
        have hc' : t₂.node 0 = some (leafNode c) := hc
        have hparent : (leafNode c : PicoTreeNode K).parent = 0 := rfl
        rw [hc', Option.bind_some, hparent, hc', Option.bind_some, hleaf]
      · rw [plug_cons, fill_other] at h₂
        exact h₂
    | node y l r =>
      obtain ⟨u, v, huv⟩ := exists_make d y l r
      rw [huv] at h hn ⊢
      have hcell : t.node y.1 = some (.of d x.1 (ptr u) (ptr v) y.2) := by
        rw [huv] at hsibling
        exact hsibling.cell.2
      rw [ptr_make] at hn ⊢
      have hn' := Option.some.inj (hn.symm.trans hcell)
      rw [hn', Cell.of_child]
      have hu : make d y u v = plug [⟨d, y, v⟩] u := rfl
      obtain ⟨t₁, hset₁, h₁, hsame₁⟩ := paint_within h hu .BLACK
      have h₁' : Stands t₁ (plug fs (make d x T (make d y (paint .BLACK u) v))) := h₁
      have hself : make d y (paint .BLACK u) v = plug [] (make d y (paint .BLACK u) v) := rfl
      obtain ⟨t₂, hset₂, h₂, hsame₂⟩ := paint_within h₁' hself .RED
      rw [ptr_make] at hset₂
      rw [plug_nil, paint_make] at h₂
      have hplace : Stands t₂ (plug (⟨d.other, x, T⟩ :: fs) (make d.other (painted .RED y) v (paint .BLACK u))) := by
        rw [plug_cons, fill_other, make_other]
        exact h₂
      obtain ⟨t₃, hrotate, hsame₃, hshape⟩ := hplace.rotateOr
      rw [painted_fst] at hrotate
      have hsame := hsame₁.trans (hsame₂.trans hsame₃)
      rcases hshape with ⟨hleaf, rfl⟩ | ⟨z, b, a, hz, h₃⟩
      · -- no child comes up
        have hy := hplace.cell.2
        have hx := hplace.frame.2
        rw [painted_fst] at hy
        rw [ptr_make, painted_fst] at hx
        refine ⟨t₃, [], make d (painted .RED y) (paint .BLACK u) v, ?_, h₂,
          keys_make_congr d rfl (keys_paint ..) rfl, hsame⟩
        simp only [hset₁, hset₂, hrotate, hy, Cell.of_parent, up_cons, hx, Cell.of_child, ptr_make, painted_fst,
          Option.bind_some]
      · have hy : Stands t₃ (plug (⟨d.other, z, a⟩ :: ⟨d.other, x, T⟩ :: fs) (make d.other (painted .RED y) v b)) := h₃
        have hycell := hy.cell.2
        have hzcell := hy.frame.2
        rw [painted_fst] at hycell
        rw [ptr_make, painted_fst] at hzcell
        refine ⟨t₃, [⟨d.other, z, a⟩], make d.other (painted .RED y) v b, ?_, ?_, ?_, hsame⟩
        · simp only [hset₁, hset₂, hrotate, hycell, Cell.of_parent, up_cons, hzcell, Cell.of_child, ptr_make, painted_fst,
            Option.bind_some]
        · rw [plug_cons, fill_other] at h₃
          exact h₃
        · show keys (make d.other z (make d.other (painted .RED y) v b) a) = _
          rw [keys_rotate, ← hz, make_other]
          exact keys_make_congr d rfl (keys_paint ..) rfl
  · rw [if_neg hblack]
    exact ⟨t, [], B, rfl, h, rfl, .refl t⟩

/-- The child of a node of the other subtree is painted. -/
theorem paint_child (h : Stands t (plug fs (make d x T (plug hs S)))) :
    ∃ t' B' n, t.node (ptr S) = some n ∧ t.setColor (n.child d.other) .BLACK = some t' ∧
      Stands t' (plug fs (make d x T B')) ∧ keys B' = keys (plug hs S) ∧ Same t t' := by
  have hplace : Stands t (plug (hs ++ ⟨d.other, x, T⟩ :: fs) S) := by
    rw [plug_append, plug_cons, fill_other]
    exact h
  cases S with
  | leaf =>
    obtain ⟨c, hc⟩ := h.leaf
    obtain ⟨t', hset, h', hsame⟩ := paint_within h rfl .BLACK
    have hchild : (leafNode c : PicoTreeNode K).child d.other = LEAF := by cases d <;> rfl
    exact ⟨t', _, leafNode c, hc, by rw [hchild]; exact hset, h', keys_plug_congr hs (keys_paint ..), hsame⟩
  | node y l r =>
    obtain ⟨u, v, huv⟩ := exists_make d y l r
    rw [huv] at h hplace ⊢
    have hv : plug hs (make d y u v) = plug (⟨d.other, y, u⟩ :: hs) v := by rw [plug_cons, fill_other]; rfl
    obtain ⟨t', hset, h', hsame⟩ := paint_within h hv .BLACK
    have hcell := hplace.cell.2
    rw [ptr_make]
    refine ⟨t', _, _, hcell, by rw [Cell.of_child_other]; exact hset, h', ?_, hsame⟩
    rw [hv]
    exact keys_plug_congr _ (keys_paint ..)

/-- **The last case**: the parent is rotated, after which the loop ends at the root. -/
theorem rotateSibling_spec (h : Stands t (plug (⟨d, x, B⟩ :: fs) T)) (hT : ptr T ≠ LEAF) :
    ∃ t' W, t.rotateSibling d (ptr T) (ptr B) = some (ptr W, t') ∧ Stands t' W ∧
      keys W = keys (plug (⟨d, x, B⟩ :: fs) T) ∧ Same t t' := by
  obtain ⟨t₁, hs, S, hfar, h₁, hkeys₁, hsame₁⟩ := farBlack_spec h
  have hplace₁ : Stands t₁ (plug (⟨d, x, plug hs S⟩ :: fs) T) := h₁
  obtain ⟨n, hn, hparent⟩ := hplace₁.parent hT
  have hx := hplace₁.frame.2
  rw [up_cons] at hparent
  obtain ⟨t₂, hset₂, h₂, hsame₂⟩ := paint_within h₁ rfl x.2.color
  obtain ⟨t₃, hset₃, h₃, hsame₃, -⟩ := h₂.setColor .BLACK
  rw [ptr_make] at hset₃
  rw [paint_make] at h₃
  obtain ⟨t₄, B', m, hm, hset₄, h₄, hkeys₄, hsame₄⟩ := paint_child h₃
  rw [ptr_paint] at hm
  obtain ⟨t₅, hrotate, hsame₅, hshape⟩ := h₄.rotateOr
  rw [painted_fst] at hrotate
  have hkeys' : keys (plug fs (make d (painted .BLACK x) T B')) = keys (plug (⟨d, x, B⟩ :: fs) T) := by
    refine keys_plug_congr fs (keys_make_congr d rfl rfl (hkeys₄.trans ?_))
    exact (keys_plug_congr hs (keys_paint ..)).trans hkeys₁
  have hend : ∃ W, Stands t₅ W ∧ keys W = keys (plug (⟨d, x, B⟩ :: fs) T) := by
    rcases hshape with ⟨-, rfl⟩ | ⟨y, u, r, rfl, h₅⟩
    · exact ⟨_, h₄, hkeys'⟩
    · refine ⟨_, h₅, ?_⟩
      rw [← hkeys']
      exact keys_plug_congr fs (keys_rotate ..)
  obtain ⟨W, h₅, hkeys⟩ := hend
  refine ⟨t₅, W, ?_, h₅, hkeys, hsame₁.trans (hsame₂.trans (hsame₃.trans (hsame₄.trans hsame₅)))⟩
  have hroot := h₅.root
  simp only [rotateSibling, hfar, hn, hparent, hx, Cell.of_value, hset₂, hset₃, hm, hset₄, hrotate, hroot,
    Option.bind_eq_bind, Option.bind_some]

/-- **A turn of the loop** of `fix_delete_collisions`: the node goes up, or the loop ends with it. -/
theorem fixDeleteTurn_spec {f : Frame (TreeNode K)} (h : Stands t (plug (f :: fs) T)) (hT : ptr T ≠ LEAF) :
    ∃ t' gs T', t.fixDeleteTurn (ptr T) = some (ptr T', t') ∧ Stands t' (plug gs T') ∧
      keys (plug gs T') = keys (plug (f :: fs) T) ∧ Same t t' ∧
      (gs.length ≤ fs.length ∨ ∀ n, t'.node (ptr T') = some n → n.value.color = .RED) := by
  obtain ⟨d, x, B⟩ := f
  obtain ⟨n, hn, hparent⟩ := h.parent hT
  have hx := h.frame.2
  have hne := h.far_ne hT
  rw [up_cons] at hparent
  have hside : t.fixDeleteTurn (ptr T) = t.fixDeleteSide d (ptr T) := by
    unfold fixDeleteTurn
    rw [hn, Option.bind_eq_bind, Option.bind_some, hparent, hx, Option.bind_some]
    cases d with
    | left => rw [Cell.of, if_pos rfl]
    | right => rw [Cell.of, if_neg hne]
  obtain ⟨t₁, x', B', fs', hred, h₁, hsame₁, hx', hkeys₁, hlength⟩ := redSibling_spec h hT
  have hsibling : Stands t₁ (plug (⟨d.other, x', T⟩ :: fs') B') := by
    rw [plug_cons, fill_other]
    exact h₁
  obtain ⟨b, hb⟩ := blackChildren_some hsibling d
  rw [hside, fixDeleteSide, hn, Option.bind_eq_bind, Option.bind_some, hparent, hx, Option.bind_some, Cell.of_child_other,
    hred, Option.bind_eq_bind, Option.bind_some]
  dsimp only
  rw [hb, Option.bind_eq_bind, Option.bind_some]
  cases b with
  | true =>
    obtain ⟨t₂, hset, h₂, hsame₂, -⟩ := hsibling.setColor .RED
    rw [plug_cons, fill_other] at h₂
    have hplace : Stands t₂ (plug (⟨d, x', paint .RED B'⟩ :: fs') T) := h₂
    obtain ⟨m, hm, hparent'⟩ := hplace.parent hT
    rw [up_cons] at hparent'
    refine ⟨t₂, fs', make d x' T (paint .RED B'), ?_, h₂, ?_, hsame₁.trans hsame₂, hlength.imp id fun hcolor n hn => ?_⟩
    · simp only [if_true, hset, hm, hparent', ptr_make, Option.bind_eq_bind, Option.bind_some]
    · rw [← hkeys₁]
      exact keys_plug_congr fs' (keys_make_congr d rfl rfl (keys_paint ..))
    · have hcell := hplace.frame.2
      rw [ptr_make] at hn
      rw [Option.some.inj (hn.symm.trans hcell), Cell.of_value]
      exact hcolor
  | false =>
    obtain ⟨t₂, W, hrotate, h₂, hkeys₂, hsame₂⟩ := rotateSibling_spec h₁ hT
    refine ⟨t₂, [], W, ?_, h₂, hkeys₂.trans hkeys₁, hsame₁.trans hsame₂, Or.inl (Nat.zero_le _)⟩
    rw [if_neg Bool.false_ne_true]
    exact hrotate

/-- **`fix_delete_collisions`** keeps the nodes in order, and ends. -/
theorem fixDeleteLoop_spec (turns : ℕ) (h : Stands t (plug fs T)) (hturns : 0 < turns)
    (hlength : fs.length + 1 < turns ∨ ∀ n, t.node (ptr T) = some n → n.value.color = .RED) :
    ∃ t' W, fixDeleteLoop turns (ptr T) t = some t' ∧ Stands t' W ∧ keys W = keys (plug fs T) ∧ Same t t' := by
  induction turns generalizing t fs T with
  | zero => exact absurd hturns (Nat.not_lt_zero _)
  | succ turns ih =>
    obtain ⟨n, hn, -⟩ := h.color
    rw [fixDeleteLoop, hn, Option.bind_eq_bind, Option.bind_some]
    by_cases hcond : ptr T ≠ t.root ∧ n.value.color = .BLACK ∧ ptr T ≠ LEAF
    · rw [if_pos hcond]
      obtain ⟨hroot, hblack, hT⟩ := hcond
      have hshort : fs.length + 1 < turns + 1 := by
        refine hlength.resolve_right fun hred => ?_
        rw [hred n hn] at hblack
        cases hblack
      cases fs with
      | nil => exact absurd h.root.symm hroot
      | cons f fs =>
        obtain ⟨t₁, gs, T', hturn, h₁, hkeys₁, hsame₁, hlength₁⟩ := fixDeleteTurn_spec h hT
        rw [List.length_cons] at hshort
        obtain ⟨t₂, W, hloop, h₂, hkeys₂, hsame₂⟩ := ih h₁ (by omega) (hlength₁.imp (fun hle => by omega) id)
        refine ⟨t₂, W, ?_, h₂, hkeys₂.trans hkeys₁, hsame₁.trans hsame₂⟩
        rw [hturn, Option.bind_eq_bind, Option.bind_some]
        exact hloop
    · rw [if_neg hcond]
      obtain ⟨t', hset, h', hsame, -⟩ := h.setColor .BLACK
      exact ⟨t', _, hset, h', keys_plug_congr fs (keys_paint ..), hsame⟩

end PicoTree

end Vdetelweb
