import Vdetelweb.Proof.PicoTree

/-!
# Searches and insertions in the trees of the stack

The comparison need not be an order on all keys: it is enough that those in the tree and the one that
is looked for can be ranked (`Searchable`). Then `pico_tree_findNode` comes to the node with the key
(`findLoop_spec`), and the place where a new node is put is where its key belongs (`placeLoop_spec`).
-/

namespace Vdetelweb

open Function Trees Bin

variable {K : Type}

namespace PicoTree

variable {t t' : PicoTree K} {fs : List (Frame (TreeNode K))} {T l r : Bin (TreeNode K)} {x : TreeNode K} {d : Side}
  {compare : K → K → ℤ} {key : K} {rank : K → ℤ}

/-- The key of the one node is below that of the other. -/
def Below (rank : K → ℤ) (x y : TreeNode K) : Prop :=
  ∀ k k', x.2.keyValue = some k → y.2.keyValue = some k' → rank k < rank k'

/-- The comparison of the node's key with a key is that of their ranks. -/
def Compares (compare : K → K → ℤ) (rank : K → ℤ) (key : K) (x : TreeNode K) : Prop :=
  ∃ k, x.2.keyValue = some k ∧ (compare k key < 0 ↔ rank k < rank key) ∧ (compare k key = 0 ↔ rank k = rank key) ∧
    (compare key k < 0 ↔ rank key < rank k)

/-- **A key can be looked for in a tree.** -/
structure Searchable (compare : K → K → ℤ) (rank : K → ℤ) (key : K) (T : Bin (TreeNode K)) : Prop where
  compares : ∀ x ∈ T.inorder, Compares compare rank key x
  sorted : T.inorder.Pairwise (Below rank)

theorem Searchable.of_node (h : Searchable compare rank key (.node x l r)) :
    Searchable compare rank key l ∧ Searchable compare rank key r ∧ Compares compare rank key x ∧
      (∀ y ∈ l.inorder, Below rank y x) ∧ ∀ y ∈ r.inorder, Below rank x y := by
  have hsorted := h.sorted
  rw [inorder_node, List.pairwise_append, List.pairwise_cons] at hsorted
  obtain ⟨hl, ⟨hxr, hr⟩, hlr⟩ := hsorted
  have hmem : ∀ y, y ∈ l.inorder ∨ y = x ∨ y ∈ r.inorder → y ∈ (Bin.node x l r).inorder := by
    intro y hy
    rw [inorder_node, List.mem_append, List.mem_cons]
    exact hy
  exact ⟨⟨fun y hy => h.compares y (hmem y (Or.inl hy)), hl⟩,
    ⟨fun y hy => h.compares y (hmem y (Or.inr (Or.inr hy))), hr⟩, h.compares x (hmem x (Or.inr (Or.inl rfl))),
    fun y hy => hlr y hy x List.mem_cons_self, hxr⟩

/-- No node of the tree has the key. -/
def Lacks (rank : K → ℤ) (key : K) (T : Bin (TreeNode K)) : Prop :=
  ∀ x ∈ T.inorder, ∀ k, x.2.keyValue = some k → rank k ≠ rank key

/-- **The search for a key**: the node that has it, at its place, or none. -/
theorem findLoop_spec (h : Stands t (plug fs T)) (hT : Searchable compare rank key T) {turns : ℕ}
    (hturns : T.height < turns) :
    (t.findLoop compare key turns (ptr T) = some none ∧ Lacks rank key T) ∨
    ∃ gs x l r k, t.findLoop compare key turns (ptr T) = some (some x.1) ∧ plug gs (.node x l r) = plug fs T ∧
      x.2.keyValue = some k ∧ rank k = rank key := by
  induction T generalizing fs turns with
  | leaf =>
    obtain ⟨turns, rfl⟩ : ∃ n, turns = n + 1 := ⟨turns - 1, by omega⟩
    left
    refine ⟨by rw [findLoop, ptr_leaf, if_pos rfl], fun x hx => absurd hx List.not_mem_nil⟩
  | node x l r ihl ihr =>
    obtain ⟨turns, rfl⟩ : ∃ n, turns = n + 1 := ⟨turns - 1, by omega⟩
    obtain ⟨hl, hr, ⟨k, hk, hlt, heq, -⟩, hlx, hxr⟩ := hT.of_node
    have hcell := Stands.cell (d := .left) h
    have hleft : Stands t (plug (⟨.left, x, r⟩ :: fs) l) := h
    have hright : Stands t (plug (⟨.right, x, l⟩ :: fs) r) := h
    rw [height] at hturns
    have hheightl : l.height < turns := by omega
    have hheightr : r.height < turns := by omega
    have hptr : ptr (Bin.node x l r) = x.1 := rfl
    rw [findLoop, hptr, if_neg hcell.1, hcell.2, Option.bind_eq_bind, Option.bind_some, Cell.of_value, hk,
      Option.bind_eq_bind, Option.bind_some]
    dsimp only
    by_cases hzero : compare k key = 0
    · right
      exact ⟨fs, x, l, r, k, by rw [if_pos hzero], rfl, hk, heq.1 hzero⟩
    · rw [if_neg hzero]
      have hne : rank k ≠ rank key := fun he => hzero (heq.2 he)
      by_cases hneg : compare k key < 0
      · -- what is on the left is still less
        rw [if_pos hneg]
        rcases ihr hright hr hheightr with ⟨hnone, hlacks⟩ | hfound
        · left
          refine ⟨hnone, fun y hy k' hk' => ?_⟩
          rw [inorder_node, List.mem_append, List.mem_cons] at hy
          rcases hy with hy | rfl | hy
          · have := hlx y hy k' k hk' hk
            have := hlt.1 hneg
            omega
          · rw [Option.some.inj (hk'.symm.trans hk)]
            exact hne
          · exact hlacks y hy k' hk'
        · exact Or.inr hfound
      · rw [if_neg hneg]
        rcases ihl hleft hl hheightl with ⟨hnone, hlacks⟩ | hfound
        · left
          refine ⟨hnone, fun y hy k' hk' => ?_⟩
          rw [inorder_node, List.mem_append, List.mem_cons] at hy
          rcases hy with hy | rfl | hy
          · exact hlacks y hy k' hk'
          · rw [Option.some.inj (hk'.symm.trans hk)]
            exact hne
          · have := hxr y hy k k' hk hk'
            have := mt hlt.2 hneg
            omega
        · exact Or.inr hfound

/-- **A key belongs at a place**: it is above all that is before and below all that is after, and the
comparison with the key of the frame says on which side the place is. -/
structure Belongs (compare : K → K → ℤ) (rank : K → ℤ) (key : K) (fs : List (Frame (TreeNode K))) : Prop where
  before : ∀ x ∈ before fs, ∀ k, x.2.keyValue = some k → rank k < rank key
  after : ∀ x ∈ after fs, ∀ k, x.2.keyValue = some k → rank key < rank k
  side : ∀ f gs, fs = f :: gs → ∃ k, f.x.2.keyValue = some k ∧ (compare key k < 0 ↔ f.side = .left)

theorem Belongs.start : Belongs compare rank key [] where
  before _ hx := absurd hx List.not_mem_nil
  after _ hx := absurd hx List.not_mem_nil
  side _ _ he := by cases he

/-- **The search for the place** of a new key. -/
theorem placeLoop_spec (h : Stands t (plug fs T)) (hT : Searchable compare rank key T) (hlacks : Lacks rank key T)
    (hfs : Belongs compare rank key fs) {turns : ℕ} (hturns : T.height < turns) :
    ∃ gs, t.placeLoop compare key turns (up fs) (ptr T) = some (up gs) ∧ plug gs .leaf = plug fs T ∧
      Belongs compare rank key gs := by
  induction T generalizing fs turns with
  | leaf =>
    obtain ⟨turns, rfl⟩ : ∃ n, turns = n + 1 := ⟨turns - 1, by omega⟩
    exact ⟨fs, by rw [placeLoop, ptr_leaf, if_pos rfl], rfl, hfs⟩
  | node x l r ihl ihr =>
    obtain ⟨turns, rfl⟩ : ∃ n, turns = n + 1 := ⟨turns - 1, by omega⟩
    obtain ⟨hl, hr, ⟨k, hk, -, -, hlt⟩, hlx, hxr⟩ := hT.of_node
    have hcell := Stands.cell (d := .left) h
    have hleft : Stands t (plug (⟨.left, x, r⟩ :: fs) l) := h
    have hright : Stands t (plug (⟨.right, x, l⟩ :: fs) r) := h
    rw [height] at hturns
    have hheightl : l.height < turns := by omega
    have hheightr : r.height < turns := by omega
    have hptr : ptr (Bin.node x l r) = x.1 := rfl
    have hmem : ∀ y, y ∈ l.inorder ∨ y = x ∨ y ∈ r.inorder → y ∈ (Bin.node x l r).inorder := by
      intro y hy
      rw [inorder_node, List.mem_append, List.mem_cons]
      exact hy
    have hne := hlacks x (hmem x (Or.inr (Or.inl rfl))) k hk
    rw [placeLoop, hptr, if_neg hcell.1, hcell.2, Option.bind_eq_bind, Option.bind_some, Cell.of_value, hk,
      Option.bind_eq_bind, Option.bind_some]
    by_cases hneg : compare key k < 0
    · rw [if_pos hneg]
      refine ihl hleft hl (fun y hy => hlacks y (hmem y (Or.inl hy))) ⟨?_, ?_, ?_⟩ hheightl
      · intro y hy
        rw [before_cons, Frame.before, List.append_nil] at hy
        exact hfs.before y hy
      · intro y hy k' hk'
        rw [after_cons, Frame.after, List.cons_append, List.mem_cons, List.mem_append] at hy
        have hxk := hlt.1 hneg
        rcases hy with rfl | hy | hy
        · rwa [← Option.some.inj (hk'.symm.trans hk)] at hxk
        · exact hxk.trans (hxr y hy k k' hk hk')
        · exact hfs.after y hy k' hk'
      · rintro f gs he
        cases he
        exact ⟨k, hk, iff_of_true hneg rfl⟩
    · rw [if_neg hneg]
      refine ihr hright hr (fun y hy => hlacks y (hmem y (Or.inr (Or.inr hy)))) ⟨?_, ?_, ?_⟩ hheightr
      · intro y hy k' hk'
        rw [before_cons, Frame.before, List.mem_append, List.mem_append, List.mem_singleton] at hy
        have hxk : rank k < rank key := by
          have := mt hlt.2 hneg
          omega
        rcases hy with hy | hy | rfl
        · exact hfs.before y hy k' hk'
        · exact (hlx y hy k' k hk' hk).trans hxk
        · rwa [← Option.some.inj (hk'.symm.trans hk)] at hxk
      · intro y hy
        rw [after_cons, Frame.after, List.nil_append] at hy
        exact hfs.after y hy
      · rintro f gs he
        cases he
        exact ⟨k, hk, iff_of_false hneg fun hd => by cases hd⟩

/-! ## `pico_tree_insert` -/

variable {W : Bin (TreeNode K)} {gs : List (Frame (TreeNode K))} {a : ℕ}

/-- A new node, which is in no tree yet. -/
theorem Stands.create_node (h : Stands t W) (hnext : t.next ∉ addrs W) (hpos : t.next ≠ LEAF) (key : K) :
    Stands (t.create_node key) W ∧ (LeafBlack t → LeafBlack (t.create_node key)) := by
  have hleaf : (t.create_node key).node LEAF = t.node LEAF := update_of_ne hpos.symm ..
  refine ⟨⟨h.root, h.rep.elsewhere hnext _, h.nodup, ?_⟩, fun hblack => hleaf.trans hblack⟩
  rw [hleaf]
  exact h.leaf

/-- **The connections**: the new node is where it belongs. -/
theorem connect_spec (h : Stands t (plug gs .leaf)) (ha : a ∉ addrs (plug gs .leaf)) (hpos : a ≠ LEAF) {v : NodeValue K}
    (hcell : t.node a = some ⟨LEAF, LEAF, LEAF, v⟩) (hgs : Belongs compare rank key gs) :
    ∃ t', t.connect compare a (up gs) key = some t' ∧ Stands t' (plug gs (.node (a, v) .leaf .leaf)) ∧ Same t t' ∧
      (LeafBlack t → LeafBlack t') := by
  obtain ⟨habove, -, hframes, -, -⟩ := h.at_place
  have hafs : a ∉ frameAddrs gs := by rwa [frameAddrs_eq]
  have hdistinct : Distinct gs (.node (a, v) .leaf .leaf) := by
    refine distinct_iff.2 ⟨hframes, List.nodup_singleton a, fun b hb => ?_⟩
    rwa [List.mem_singleton.1 hb]
  obtain ⟨t₁, hset, hnode, hroot, honly⟩ := set_only hcell (fun n => { n with parent := up gs })
    (List.mem_singleton_self a)
  have hleaf₁ : t₁.node LEAF = t.node LEAF := honly.node LEAF (List.mem_singleton.not.2 hpos.symm)
  have hrep : Rep t₁.node (up gs) (.node (a, v) .leaf .leaf) := by
    refine ⟨hpos, ?_, trivial, trivial⟩
    rw [hnode]
    exact update_self ..
  have hplace : ∀ t', (∀ b ∉ frameAddrs gs, t'.node b = t₁.node b) → Same t₁ t' → Above t'.node t'.root a gs →
      Stands t' (plug gs (.node (a, v) .leaf .leaf)) ∧ Same t t' ∧ (LeafBlack t → LeafBlack t') := by
    intro t' hkept hsame habove'
    have hleaf' : t'.node LEAF = t.node LEAF :=
      (hkept LEAF fun hmem => habove.ne_zero hmem rfl).trans hleaf₁
    refine ⟨stands_plug habove' (hrep.congr fun b hb => hkept b ?_) hdistinct ?_, honly.toSame.trans hsame,
      fun hblack => hleaf'.trans hblack⟩
    · rwa [List.mem_singleton.1 hb]
    · rw [hleaf']
      exact h.leaf
  unfold connect
  rw [setParent, hset, Option.bind_eq_bind, Option.bind_some]
  cases gs with
  | nil =>
    rw [up_nil, if_pos rfl]
    exact ⟨_, rfl, hplace _ (fun _ _ => rfl) ⟨rfl, fun _ => rfl⟩ rfl⟩
  | cons f gs =>
    have habove₁ : Above t₁.node t₁.root LEAF (f :: gs) := by
      rw [hnode, hroot]
      exact habove.elsewhere hafs _
    have hf := habove₁.2.1
    obtain ⟨k, hk, hside⟩ := hgs.side f gs rfl
    rw [up_cons, if_neg habove₁.1, hf, Option.bind_eq_bind, Option.bind_some, Cell.of_value, hk, Option.bind_eq_bind,
      Option.bind_some]
    have hchild : (if compare key k < 0 then t₁.setChild .left f.x.1 a else t₁.setChild .right f.x.1 a) =
        t₁.setChild f.side f.x.1 a := by
      cases hd : f.side with
      | left => rw [if_pos (hside.2 hd)]
      | right =>
        rw [if_neg]
        intro hneg
        have hleft := hside.1 hneg
        rw [hd] at hleft
        cases hleft
    rw [hchild]
    obtain ⟨t₂, hset₂, hnode₂, hroot₂, honly₂⟩ := set_only hf (Cell.setChild f.side a)
      (mem_frameAddrs_cons.2 (Or.inl rfl) : f.x.1 ∈ frameAddrs (f :: gs))
    refine ⟨t₂, hset₂, hplace t₂ honly₂.node honly₂.toSame ?_⟩
    rw [hnode₂, hroot₂]
    exact habove₁.hung hframes hf a

theorem keys_plug (fs : List (Frame (TreeNode K))) (T : Bin (TreeNode K)) : keys (plug fs T) =
    (before fs).map (fun x => (x.1, x.2.keyValue)) ++ keys T ++ (after fs).map (fun x => (x.1, x.2.keyValue)) := by
  rw [keys, inorder_plug, List.map_append, List.map_append]
  rfl

/-- A red node without children may clash with its parent, and with nothing else. -/
theorem clash_new (h : Balanced IsRed (plug gs .leaf)) (hx : IsRed x) : Clash IsRed gs (.node x .leaf .leaf) := by
  obtain ⟨hcalm, -, n, hn⟩ := h
  obtain ⟨m, hm, hrest⟩ := black_plug hn
  cases hm
  exact ⟨⟨fun _ => ⟨not_false, not_false⟩, trivial, trivial⟩, (calm_plug.1 hcalm).1, n, hrest _ (.red hx .leaf .leaf)⟩

/-- **`pico_tree_insert`**, of a key that is not in the tree. -/
theorem insertNew_spec (h : Stands t W) (hnext : t.next ∉ addrs W) (hsize : W.size < t.next)
    (hW : Searchable compare rank key W) (hlacks : Lacks rank key W) :
    ∃ t' W' gs, t.insertNew compare key = some t' ∧ Stands t' W' ∧ W = plug gs .leaf ∧
      keys W' = (before gs).map (fun x => (x.1, x.2.keyValue)) ++
        (t.next, some key) :: (after gs).map (fun x => (x.1, x.2.keyValue)) ∧
      Belongs compare rank key gs ∧ t'.next = t.next + 1 ∧
      (∀ a, (t'.node a).isSome ↔ (t.node a).isSome ∨ a = t.next) ∧
      (LeafBlack t → LeafBlack t') ∧ (LeafBlack t → Balanced IsRed W → Balanced IsRed W') := by
  have hpos : t.next ≠ LEAF := by
    show t.next ≠ 0
    omega
  obtain ⟨h₁, hleaf₁⟩ := h.create_node hnext hpos key
  have hwhole : Stands (t.create_node key) (plug [] W) := h₁
  obtain ⟨gs, hplace, hplug, hbelongs⟩ := placeLoop_spec hwhole hW hlacks Belongs.start
    (show W.height < (t.create_node key).next + 1 by
      have := W.height_le_size
      show W.height < t.next + 1 + 1
      omega)
  rw [plug_nil] at hplug
  rw [← hplug] at h₁ hnext
  have hcell : (t.create_node key).node t.next = some ⟨LEAF, LEAF, LEAF, ⟨some key, .RED⟩⟩ := update_self ..
  obtain ⟨t₂, hconnect, h₂, hsame₂, hleaf₂⟩ := connect_spec h₁ hnext hpos hcell hbelongs
  have hlength : gs.length < t₂.next + 1 := by
    have hle := length_le_size gs (.leaf : Bin (TreeNode K))
    rw [hplug] at hle
    have hnext₂ : t₂.next = t.next + 1 := hsame₂.next
    rw [hnext₂]
    have := Nat.le_of_add_right_le hle
    omega
  have hnode : Stands t₂ (plug gs (make .left (t.next, ⟨some key, .RED⟩) .leaf .leaf)) := h₂
  obtain ⟨t', W', hfix, h', hkeys, hsame, hleaf, hbalanced⟩ := fixInsertLoop_spec (t₂.next + 1) hnode hlength
  refine ⟨t', W', gs, ?_, h', hplug.symm, ?_, hbelongs, ?_, fun a => ?_, fun hb => hleaf (hleaf₂ (hleaf₁ hb)),
    fun hb hW' => ?_⟩
  · have hroot : (t.create_node key).root = ptr W := h.root
    rw [up_nil] at hplace
    simp only [insertNew, hroot, hplace, hconnect, fix_insert_collisions, Option.bind_eq_bind, Option.bind_some]
    exact hfix
  · rw [hkeys, keys_plug]
    simp [keys, make]
  · rw [hsame.next, hsame₂.next]
    rfl
  · rw [hsame.live, hsame₂.live]
    by_cases ha : a = t.next
    · rw [ha, hcell]
      exact iff_of_true rfl (Or.inr rfl)
    · have hother : (t.create_node key).node a = t.node a := update_of_ne ha ..
      rw [hother]
      exact (or_iff_left ha).symm
  · refine hbalanced (hleaf₂ (hleaf₁ hb)) rfl (clash_new ?_ rfl)
    rw [hplug]
    exact hW'

end PicoTree

end Vdetelweb
