import Vdetelweb.Lib.Trees

/-!
# Binary trees in memory

A cell of memory has the addresses of its parent and of its children, and 0 is the address of no
node. `Rep` says that a tree stands in memory below a parent, and `Above` that frames stand there
around a place: the cell of each frame points to what is below it. Both together say it of the whole
tree (`rep_plug`).

Memory is changed by one cell at a time. A change elsewhere is of no matter (`Rep.elsewhere`,
`Above.elsewhere`), and the two changes that move a subtree are those of its parent (`Rep.adopted`)
and of the child of the frame above (`Above.hung`).
-/

namespace Trees

open Function Bin

variable {α : Type*}

/-! ## Cells -/

/-- A cell: the parent, the children, and what is there. -/
structure Cell (α : Type*) where
  parent : ℕ
  leftChild : ℕ
  rightChild : ℕ
  value : α

namespace Cell

/-- The child on a side. -/
def child (d : Side) (c : Cell α) : ℕ :=
  match d with
  | .left => c.leftChild
  | .right => c.rightChild

/-- The cell with another child on a side. -/
def setChild (d : Side) (a : ℕ) (c : Cell α) : Cell α :=
  match d with
  | .left => { c with leftChild := a }
  | .right => { c with rightChild := a }

/-- The cell with the one child on the side `d` and the other on the other side. -/
def of (d : Side) (parent near far : ℕ) (value : α) : Cell α :=
  match d with
  | .left => ⟨parent, near, far, value⟩
  | .right => ⟨parent, far, near, value⟩

variable (d : Side) (p near far : ℕ) (v : α)

@[simp] theorem child_left (c : Cell α) : c.child .left = c.leftChild := rfl
@[simp] theorem child_right (c : Cell α) : c.child .right = c.rightChild := rfl
@[simp] theorem of_parent : (of d p near far v).parent = p := by cases d <;> rfl
@[simp] theorem of_value : (of d p near far v).value = v := by cases d <;> rfl
@[simp] theorem of_child : (of d p near far v).child d = near := by cases d <;> rfl
@[simp] theorem of_child_other : (of d p near far v).child d.other = far := by cases d <;> rfl
@[simp] theorem of_setChild (a : ℕ) : (of d p near far v).setChild d a = of d p a far v := by cases d <;> rfl
@[simp] theorem of_setChild_other (a : ℕ) : (of d p near far v).setChild d.other a = of d p near a v := by
  cases d <;> rfl
@[simp] theorem of_with_parent (q : ℕ) : { of d p near far v with parent := q } = of d q near far v := by
  cases d <;> rfl
@[simp] theorem of_with_value (w : α) : { of d p near far v with value := w } = of d p near far w := by
  cases d <;> rfl

end Cell

/-! ## Trees in memory -/

/-- A node that is placed: its address, and what is there. -/
abbrev Placed (α : Type*) := ℕ × α

/-- The address of a tree. -/
def ptr : Bin (Placed α) → ℕ
  | .leaf => 0
  | .node x _ _ => x.1

@[simp] theorem ptr_leaf : ptr (.leaf : Bin (Placed α)) = 0 := rfl
@[simp] theorem ptr_make (d : Side) (x : Placed α) (s t : Bin (Placed α)) : ptr (make d x s t) = x.1 := by
  cases d <;> rfl

/-- The address of the innermost frame. -/
def up : List (Frame (Placed α)) → ℕ
  | [] => 0
  | f :: _ => f.x.1

@[simp] theorem up_nil : up ([] : List (Frame (Placed α))) = 0 := rfl
@[simp] theorem up_cons (f : Frame (Placed α)) (fs : List (Frame (Placed α))) : up (f :: fs) = f.x.1 := rfl

/-- **The tree stands in memory**, below the parent. -/
def Rep (m : ℕ → Option (Cell α)) : ℕ → Bin (Placed α) → Prop
  | _, .leaf => True
  | p, .node x l r => x.1 ≠ 0 ∧ m x.1 = some ⟨p, ptr l, ptr r, x.2⟩ ∧ Rep m x.1 l ∧ Rep m x.1 r

/-- **The frames stand in memory**, around what is at the address `h`. -/
def Above (m : ℕ → Option (Cell α)) (root : ℕ) : ℕ → List (Frame (Placed α)) → Prop
  | h, [] => root = h
  | h, f :: fs => f.x.1 ≠ 0 ∧ m f.x.1 = some (.of f.side (up fs) h (ptr f.far) f.x.2) ∧ Rep m f.x.1 f.far ∧
      Above m root f.x.1 fs

variable {m m' : ℕ → Option (Cell α)} {p q h h' root a : ℕ} {t : Bin (Placed α)} {fs : List (Frame (Placed α))}

theorem rep_make {d : Side} {x : Placed α} {s t : Bin (Placed α)} : Rep m p (make d x s t) ↔
    x.1 ≠ 0 ∧ m x.1 = some (.of d p (ptr s) (ptr t) x.2) ∧ Rep m x.1 s ∧ Rep m x.1 t := by
  cases d
  · exact Iff.rfl
  · refine and_congr_right fun _ => and_congr_right fun _ => and_comm

/-- **The whole tree.** -/
theorem rep_plug : Above m root (ptr t) fs ∧ Rep m (up fs) t ↔ root = ptr (plug fs t) ∧ Rep m 0 (plug fs t) := by
  induction fs generalizing t with
  | nil => exact Iff.rfl
  | cons f fs ih =>
    rw [plug_cons, ← ih]
    rw [Frame.fill, ptr_make, rep_make, Above, up_cons]
    constructor
    · rintro ⟨⟨hne, hcell, hfar, habove⟩, ht⟩
      exact ⟨habove, hne, hcell, ht, hfar⟩
    · rintro ⟨habove, hne, hcell, ht, hfar⟩
      exact ⟨⟨hne, hcell, hfar, habove⟩, ht⟩

/-! ## Addresses -/

/-- The addresses of a tree. -/
def addrs (t : Bin (Placed α)) : List ℕ := t.inorder.map Prod.fst

/-- The addresses of frames. -/
def frameAddrs (fs : List (Frame (Placed α))) : List ℕ := (before fs ++ after fs).map Prod.fst

@[simp] theorem mem_addrs_leaf : a ∉ addrs (.leaf : Bin (Placed α)) := List.not_mem_nil

@[simp] theorem mem_addrs_make {d : Side} {x : Placed α} {s t : Bin (Placed α)} :
    a ∈ addrs (make d x s t) ↔ a = x.1 ∨ a ∈ addrs s ∨ a ∈ addrs t := by
  cases d <;> simp only [addrs, make, inorder_node, List.map_append, List.map_cons, List.mem_append, List.mem_cons] <;>
    tauto

@[simp] theorem mem_frameAddrs_nil : a ∉ frameAddrs ([] : List (Frame (Placed α))) := List.not_mem_nil

@[simp] theorem mem_frameAddrs_cons {f : Frame (Placed α)} :
    a ∈ frameAddrs (f :: fs) ↔ a = f.x.1 ∨ a ∈ addrs f.far ∨ a ∈ frameAddrs fs := by
  obtain ⟨d, x, far⟩ := f
  cases d <;>
    simp only [frameAddrs, addrs, before_cons, after_cons, Frame.before, Frame.after, List.map_append, List.map_cons,
      List.map_nil, List.mem_append, List.mem_cons, List.not_mem_nil, or_false, false_or] <;>
    tauto

theorem mem_frameAddrs_append {gs : List (Frame (Placed α))} :
    a ∈ frameAddrs (gs ++ fs) ↔ a ∈ frameAddrs gs ∨ a ∈ frameAddrs fs := by
  induction gs with
  | nil => exact (or_iff_right mem_frameAddrs_nil).symm
  | cons g gs ih => rw [List.cons_append, mem_frameAddrs_cons, mem_frameAddrs_cons, ih, or_assoc, or_assoc]

theorem ptr_mem (h : ptr t ≠ 0) : ptr t ∈ addrs t := by
  cases t with
  | leaf => exact absurd rfl h
  | node x l r => exact mem_addrs_make (d := .left).2 (Or.inl rfl)

theorem frameAddrs_eq (fs : List (Frame (Placed α))) : frameAddrs fs = addrs (plug fs .leaf) := by
  rw [frameAddrs, addrs, inorder_plug, inorder_leaf, List.append_nil]

/-- Each node has an address of its own. -/
def Distinct (fs : List (Frame (Placed α))) (t : Bin (Placed α)) : Prop := (addrs (plug fs t)).Nodup

theorem nodup_addrs_make {d : Side} {x : Placed α} {s t : Bin (Placed α)} : (addrs (make d x s t)).Nodup ↔
    x.1 ∉ addrs s ∧ x.1 ∉ addrs t ∧ (addrs s).Nodup ∧ (addrs t).Nodup ∧ ∀ a ∈ addrs s, a ∉ addrs t := by
  have hmiddle : ∀ l r : List ℕ, (l ++ x.1 :: r).Nodup ↔
      x.1 ∉ l ∧ x.1 ∉ r ∧ l.Nodup ∧ r.Nodup ∧ ∀ a ∈ l, a ∉ r := by
    intro l r
    rw [List.nodup_middle, List.nodup_cons, List.nodup_append', List.mem_append, not_or, List.disjoint_left]
    tauto
  cases d
  · rw [addrs, make, inorder_node, List.map_append, List.map_cons]
    exact hmiddle _ _
  · rw [addrs, make, inorder_node, List.map_append, List.map_cons]
    refine (hmiddle _ _).trans ?_
    have hcomm : (∀ a ∈ addrs t, a ∉ addrs s) ↔ ∀ a ∈ addrs s, a ∉ addrs t :=
      ⟨fun h a hs ht => h a ht hs, fun h a ht hs => h a hs ht⟩
    unfold addrs at hcomm ⊢
    tauto

theorem addrs_plug (fs : List (Frame (Placed α))) (t : Bin (Placed α)) :
    (addrs (plug fs t)).Perm (frameAddrs fs ++ addrs t) := by
  rw [addrs, frameAddrs, addrs, inorder_plug, ← List.map_append]
  refine List.Perm.map _ ?_
  rw [List.append_assoc, List.append_assoc]
  exact List.Perm.append_left _ List.perm_append_comm

theorem mem_addrs_plug : a ∈ addrs (plug fs t) ↔ a ∈ frameAddrs fs ∨ a ∈ addrs t :=
  (addrs_plug fs t).mem_iff.trans List.mem_append

/-- **Distinct addresses**, at a place. -/
theorem distinct_iff : Distinct fs t ↔ (frameAddrs fs).Nodup ∧ (addrs t).Nodup ∧ ∀ a ∈ addrs t, a ∉ frameAddrs fs := by
  rw [Distinct, (addrs_plug fs t).nodup_iff, List.nodup_append', List.disjoint_right]

/-! ## Changes of memory -/

/-- Memory that is the same at the addresses. -/
theorem Rep.congr (ht : Rep m p t) (hm : ∀ a ∈ addrs t, m' a = m a) : Rep m' p t := by
  induction t generalizing p with
  | leaf => trivial
  | node x l r ihl ihr =>
    obtain ⟨hne, hcell, hl, hr⟩ := ht
    refine ⟨hne, ?_, ihl hl fun a ha => hm a ?_, ihr hr fun a ha => hm a ?_⟩
    · rw [hm x.1 (mem_addrs_make (d := .left).2 (Or.inl rfl)), hcell]
    · exact mem_addrs_make (d := .left).2 (Or.inr (Or.inl ha))
    · exact mem_addrs_make (d := .left).2 (Or.inr (Or.inr ha))

theorem Above.congr (hfs : Above m root h fs) (hm : ∀ a ∈ frameAddrs fs, m' a = m a) : Above m' root h fs := by
  induction fs generalizing h with
  | nil => exact hfs
  | cons f fs ih =>
    obtain ⟨hne, hcell, hfar, habove⟩ := hfs
    refine ⟨hne, ?_, hfar.congr fun a ha => hm a ?_, ih habove fun a ha => hm a ?_⟩
    · rw [hm f.x.1 (mem_frameAddrs_cons.2 (Or.inl rfl)), hcell]
    · exact mem_frameAddrs_cons.2 (Or.inr (Or.inl ha))
    · exact mem_frameAddrs_cons.2 (Or.inr (Or.inr ha))

theorem Rep.elsewhere (ht : Rep m p t) (ha : a ∉ addrs t) (c : Option (Cell α)) : Rep (update m a c) p t := by
  refine ht.congr fun b hb => update_of_ne ?_ _ _
  rintro rfl
  exact ha hb

theorem Above.elsewhere (hfs : Above m root h fs) (ha : a ∉ frameAddrs fs) (c : Option (Cell α)) :
    Above (update m a c) root h fs := by
  refine hfs.congr fun b hb => update_of_ne ?_ _ _
  rintro rfl
  exact ha hb

/-- The addresses of a tree in memory are not 0. -/
theorem Rep.ne_zero (ht : Rep m p t) (ha : a ∈ addrs t) : a ≠ 0 := by
  induction t generalizing p with
  | leaf => exact absurd ha mem_addrs_leaf
  | node x l r ihl ihr =>
    obtain ⟨hne, -, hl, hr⟩ := ht
    rcases mem_addrs_make (d := .left).1 ha with rfl | ha | ha
    · exact hne
    · exact ihl hl ha
    · exact ihr hr ha

theorem Rep.eq_leaf (ht : Rep m p t) (hptr : ptr t = 0) : t = .leaf := by
  cases t with
  | leaf => rfl
  | node x l r => exact absurd hptr ht.1

theorem Above.ne_zero (hfs : Above m root h fs) (ha : a ∈ frameAddrs fs) : a ≠ 0 := by
  induction fs generalizing h with
  | nil => exact absurd ha mem_frameAddrs_nil
  | cons f fs ih =>
    obtain ⟨hne, -, hfar, habove⟩ := hfs
    rcases mem_frameAddrs_cons.1 ha with rfl | ha | ha
    · exact hne
    · exact hfar.ne_zero ha
    · exact ih habove ha

/-- **Another parent.** -/
theorem Rep.adopted (ht : Rep m p t) (hdistinct : (addrs t).Nodup) {c : Cell α} (hc : m (ptr t) = some c)
    (hne : ptr t ≠ 0) (q : ℕ) : Rep (update m (ptr t) (some { c with parent := q })) q t := by
  cases t with
  | leaf => exact absurd rfl hne
  | node x l r =>
    obtain ⟨hxl, hxr, -⟩ := nodup_addrs_make (d := .left).1 hdistinct
    obtain ⟨-, hcell, hl, hr⟩ := ht
    have hsame : c = ⟨p, ptr l, ptr r, x.2⟩ := Option.some.inj (hc.symm.trans hcell)
    refine ⟨hne, ?_, hl.elsewhere hxl _, hr.elsewhere hxr _⟩
    rw [hsame]
    exact update_self _ _ _

/-- **Something else at the place.** -/
theorem Above.hung {f : Frame (Placed α)} (hfs : Above m root h (f :: fs)) (hdistinct : (frameAddrs (f :: fs)).Nodup)
    {c : Cell α} (hc : m f.x.1 = some c) (h' : ℕ) :
    Above (update m f.x.1 (some (c.setChild f.side h'))) root h' (f :: fs) := by
  obtain ⟨hne, hcell, hfar, habove⟩ := hfs
  have hfill : Distinct fs (f.fill .leaf) := by
    rw [frameAddrs_eq] at hdistinct
    exact hdistinct
  obtain ⟨-, hown, hapart⟩ := distinct_iff.1 hfill
  obtain ⟨-, hxfar, -⟩ := nodup_addrs_make.1 hown
  have hxfs : f.x.1 ∉ frameAddrs fs := hapart _ (mem_addrs_make.2 (Or.inl rfl))
  have hsame : c = .of f.side (up fs) h (ptr f.far) f.x.2 := Option.some.inj (hc.symm.trans hcell)
  refine ⟨hne, ?_, hfar.elsewhere hxfar _, habove.elsewhere hxfs _⟩
  rw [hsame, Cell.of_setChild]
  exact update_self _ _ _

end Trees
