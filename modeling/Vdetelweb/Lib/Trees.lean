import Mathlib

/-!
# Binary trees, seen from one of their nodes

A place in a tree is the subtree that stands there and the frames above it, the innermost first
(`plug`). The order of the nodes is that of `inorder`; what stands before and after a place in it is
read off the frames (`inorder_plug`), so that a change at one place, such as a rotation
(`inorder_rotate`), leaves the rest in order.

A tree whose nodes are red or black is balanced if no child of a red node is red and all paths go
through as many black nodes (`Balanced`). While a node is put in, this may fail between one red node
and its parent (`Clash`); recolouring moves the clash up by two frames, and a rotation ends it.
-/

namespace Trees

/-! ## Sides -/

/-- The side of a child. -/
inductive Side
  | left
  | right
  deriving DecidableEq, Repr

/-- The other side. -/
def Side.other : Side → Side
  | .left => .right
  | .right => .left

@[simp] theorem Side.other_left : Side.left.other = .right := rfl
@[simp] theorem Side.other_right : Side.right.other = .left := rfl
@[simp] theorem Side.other_other (d : Side) : d.other.other = d := by cases d <;> rfl

theorem Side.eq_or_eq_other (d e : Side) : e = d ∨ e = d.other := by
  cases d <;> cases e <;> simp

/-! ## Trees and places -/

/-- A binary tree. -/
inductive Bin (α : Type*)
  | leaf
  | node (x : α) (l r : Bin α)

variable {α : Type*}

namespace Bin

/-- The nodes in their order. -/
def inorder : Bin α → List α
  | leaf => []
  | node x l r => l.inorder ++ x :: r.inorder

@[simp] theorem inorder_leaf : (leaf : Bin α).inorder = [] := rfl
@[simp] theorem inorder_node (x : α) (l r : Bin α) : (node x l r).inorder = l.inorder ++ x :: r.inorder := rfl

/-- The node with the one child on the side `d` and the other on the other side. -/
def make (d : Side) (x : α) (near far : Bin α) : Bin α :=
  match d with
  | .left => node x near far
  | .right => node x far near

theorem exists_make (d : Side) (x : α) (l r : Bin α) : ∃ s t, node x l r = make d x s t := by
  cases d
  · exact ⟨l, r, rfl⟩
  · exact ⟨r, l, rfl⟩

theorem make_other (d : Side) (x : α) (s t : Bin α) : make d.other x s t = make d x t s := by cases d <;> rfl

/-- The number of nodes. -/
def size : Bin α → ℕ
  | leaf => 0
  | node _ l r => l.size + r.size + 1

theorem length_inorder (t : Bin α) : t.inorder.length = t.size := by
  induction t with
  | leaf => rfl
  | node x l r ihl ihr =>
    rw [inorder_node, List.length_append, List.length_cons, ihl, ihr, size, add_assoc]

/-- The number of nodes on the longest path. -/
def height : Bin α → ℕ
  | leaf => 0
  | node _ l r => max l.height r.height + 1

theorem height_make (d : Side) (x : α) (s t : Bin α) : (make d x s t).height = max s.height t.height + 1 := by
  cases d
  · rfl
  · rw [make, height, max_comm]

theorem height_le_size (t : Bin α) : t.height ≤ t.size := by
  induction t with
  | leaf => exact le_rfl
  | node x l r ihl ihr =>
    rw [height, size]
    omega

end Bin

open Bin

/-- A node above a place: the side on which the place is, and the child on the other side. -/
structure Frame (α : Type*) where
  side : Side
  x : α
  far : Bin α

/-- The frame, with what is at the place. -/
def Frame.fill (f : Frame α) (t : Bin α) : Bin α := make f.side f.x t f.far

/-- The whole tree. -/
def plug : List (Frame α) → Bin α → Bin α
  | [], t => t
  | f :: fs, t => plug fs (f.fill t)

@[simp] theorem plug_nil (t : Bin α) : plug [] t = t := rfl
@[simp] theorem plug_cons (f : Frame α) (fs : List (Frame α)) (t : Bin α) : plug (f :: fs) t = plug fs (f.fill t) := rfl

/-- The other child of a node is a place as well. -/
theorem fill_other (d : Side) (x : α) (s t : Bin α) : Frame.fill ⟨d.other, x, s⟩ t = Frame.fill ⟨d, x, t⟩ s :=
  make_other d x t s

theorem plug_append (fs gs : List (Frame α)) (t : Bin α) : plug (fs ++ gs) t = plug gs (plug fs t) := by
  induction fs generalizing t with
  | nil => rfl
  | cons f fs ih => exact ih (f.fill t)

/-- What is before the place within the frame. -/
def Frame.before (f : Frame α) : List α :=
  match f.side with
  | .left => []
  | .right => f.far.inorder ++ [f.x]

/-- What is after the place within the frame. -/
def Frame.after (f : Frame α) : List α :=
  match f.side with
  | .left => f.x :: f.far.inorder
  | .right => []

theorem inorder_fill (f : Frame α) (t : Bin α) : (f.fill t).inorder = f.before ++ t.inorder ++ f.after := by
  obtain ⟨d, x, far⟩ := f
  cases d <;> simp [Frame.fill, make, Frame.before, Frame.after]

/-- What is before the place. -/
def before : List (Frame α) → List α
  | [] => []
  | f :: fs => before fs ++ f.before

/-- What is after the place. -/
def after : List (Frame α) → List α
  | [] => []
  | f :: fs => f.after ++ after fs

@[simp] theorem before_nil : before ([] : List (Frame α)) = [] := rfl
@[simp] theorem after_nil : after ([] : List (Frame α)) = [] := rfl
@[simp] theorem before_cons (f : Frame α) (fs : List (Frame α)) : before (f :: fs) = before fs ++ f.before := rfl
@[simp] theorem after_cons (f : Frame α) (fs : List (Frame α)) : after (f :: fs) = f.after ++ after fs := rfl

/-- **The order of the whole tree.** -/
theorem inorder_plug (fs : List (Frame α)) (t : Bin α) : (plug fs t).inorder = before fs ++ t.inorder ++ after fs := by
  induction fs generalizing t with
  | nil => simp
  | cons f fs ih =>
    rw [plug_cons, ih, inorder_fill]
    simp [List.append_assoc]

/-- A change at a place that keeps the order there keeps the order. -/
theorem inorder_plug_congr (fs : List (Frame α)) {s t : Bin α} (h : s.inorder = t.inorder) :
    (plug fs s).inorder = (plug fs t).inorder := by rw [inorder_plug, inorder_plug, h]

theorem before_append (fs gs : List (Frame α)) : before (fs ++ gs) = before gs ++ before fs := by
  induction fs with
  | nil => exact (List.append_nil _).symm
  | cons f fs ih => rw [List.cons_append, before_cons, before_cons, ih, List.append_assoc]

theorem after_append (fs gs : List (Frame α)) : after (fs ++ gs) = after fs ++ after gs := by
  induction fs with
  | nil => rfl
  | cons f fs ih => rw [List.cons_append, after_cons, after_cons, ih, List.append_assoc]

/-- **The place of a node**, from where it is in the order. -/
theorem exists_place {t : Bin α} {as bs : List α} {x : α} (h : t.inorder = as ++ x :: bs) :
    ∃ fs l r, t = plug fs (.node x l r) ∧ before fs ++ l.inorder = as ∧ r.inorder ++ after fs = bs := by
  induction t generalizing as bs with
  | leaf => exact absurd h.symm (List.append_ne_nil_of_right_ne_nil as (List.cons_ne_nil x bs))
  | node y l r ihl ihr =>
    have hhere : y = x → l.inorder = as → r.inorder = bs → ∃ fs s u, Bin.node y l r = plug fs (.node x s u) ∧
        before fs ++ s.inorder = as ∧ u.inorder ++ after fs = bs := by
      rintro rfl has hbs
      exact ⟨[], l, r, rfl, has, by rw [after_nil, List.append_nil, hbs]⟩
    rw [inorder_node, List.append_eq_append_iff] at h
    rcases h with ⟨cs, has, hcs⟩ | ⟨cs, hl, hcs⟩
    · cases cs with
      | nil =>
        obtain ⟨hy, hr⟩ := List.cons.inj hcs
        exact hhere hy (by rw [has, List.append_nil]) hr
      | cons z cs =>
        -- on the right
        obtain ⟨rfl, hr⟩ := List.cons.inj hcs
        obtain ⟨fs, s, u, hplug, hbefore, hafter⟩ := ihr hr
        refine ⟨fs ++ [⟨.right, y, l⟩], s, u, ?_, ?_, ?_⟩
        · rw [plug_append, ← hplug]
          rfl
        · rw [before_append, List.append_assoc, hbefore, has]
          simp [before, Frame.before]
        · rw [after_append, ← List.append_assoc, hafter]
          simp [after, Frame.after]
    · cases cs with
      | nil =>
        obtain ⟨hx, hr⟩ := List.cons.inj hcs
        exact hhere hx.symm (by rw [hl, List.append_nil]) hr.symm
      | cons z cs =>
        -- on the left
        obtain ⟨rfl, hbs⟩ := List.cons.inj hcs
        obtain ⟨fs, s, u, hplug, hbefore, hafter⟩ := ihl hl
        refine ⟨fs ++ [⟨.left, y, r⟩], s, u, ?_, ?_, ?_⟩
        · rw [plug_append, ← hplug]
          rfl
        · rw [before_append, List.append_assoc, hbefore]
          simp [before, Frame.before]
        · rw [after_append, ← List.append_assoc, hafter, hbs]
          simp [after, Frame.after]

/-- There is a place for one more node. -/
theorem exists_leaf (t : Bin α) : ∃ fs, plug fs .leaf = t := by
  induction t with
  | leaf => exact ⟨[], rfl⟩
  | node x l r ihl _ =>
    obtain ⟨fs, hfs⟩ := ihl
    refine ⟨fs ++ [⟨.left, x, r⟩], ?_⟩
    rw [plug_append, hfs]
    rfl

/-- **A rotation keeps the order.** -/
theorem inorder_rotate (d : Side) (a b : α) (s t u : Bin α) :
    (make d b (make d a s t) u).inorder = (make d a s (make d b t u)).inorder := by
  cases d <;> simp [make]

/-- The frames of a node are above it in the whole tree. -/
theorem length_le_size (fs : List (Frame α)) (t : Bin α) : fs.length + t.size ≤ (plug fs t).size := by
  induction fs generalizing t with
  | nil => exact (Nat.zero_add _).le
  | cons f fs ih =>
    have hfill : t.size + 1 ≤ (f.fill t).size := by
      obtain ⟨d, x, far⟩ := f
      cases d <;> simp only [Frame.fill, make, size] <;> omega
    have := ih (f.fill t)
    rw [plug_cons, List.length_cons]
    omega

/-! ## Red and black nodes -/

section Balance

variable (red : α → Prop)

/-- The root is a red node. -/
def RedRoot : Bin α → Prop
  | .leaf => False
  | .node x _ _ => red x

/-- No child of a red node is red. -/
def Calm : Bin α → Prop
  | .leaf => True
  | .node x l r => (red x → ¬ RedRoot red l ∧ ¬ RedRoot red r) ∧ Calm l ∧ Calm r

/-- All paths go through so many black nodes. -/
inductive Black : ℕ → Bin α → Prop
  | leaf : Black 0 .leaf
  | red {n : ℕ} {x : α} {l r : Bin α} : red x → Black n l → Black n r → Black n (.node x l r)
  | black {n : ℕ} {x : α} {l r : Bin α} : ¬ red x → Black n l → Black n r → Black (n + 1) (.node x l r)

/-- **A tree is balanced.** -/
def Balanced (t : Bin α) : Prop := Calm red t ∧ ¬ RedRoot red t ∧ ∃ n, Black red n t

/-- Frames are calm around a place, whose root is red or not. -/
def CalmAbove : Prop → List (Frame α) → Prop
  | _, [] => True
  | r, f :: fs => (red f.x → ¬ r ∧ ¬ RedRoot red f.far) ∧ Calm red f.far ∧ CalmAbove (red f.x) fs

variable {red} {s t u : Bin α} {fs : List (Frame α)} {n : ℕ} {x y : α}

@[simp] theorem redRoot_make (d : Side) : RedRoot red (make d x s t) ↔ red x := by cases d <;> exact Iff.rfl

theorem calm_make {d : Side} : Calm red (make d x s t) ↔
    (red x → ¬ RedRoot red s ∧ ¬ RedRoot red t) ∧ Calm red s ∧ Calm red t := by
  cases d
  · exact Iff.rfl
  · refine and_congr (imp_congr_right fun _ => and_comm) and_comm

theorem calm_plug : Calm red (plug fs t) ↔ CalmAbove red (RedRoot red t) fs ∧ Calm red t := by
  induction fs generalizing t with
  | nil => exact ⟨fun h => ⟨trivial, h⟩, fun h => h.2⟩
  | cons f fs ih =>
    rw [plug_cons, ih, Frame.fill, redRoot_make, calm_make, CalmAbove]
    tauto

theorem CalmAbove.mono {p q : Prop} (h : CalmAbove red p fs) (hpq : q → p) : CalmAbove red q fs := by
  cases fs with
  | nil => trivial
  | cons f fs => exact ⟨fun hf => ⟨fun hq => (h.1 hf).1 (hpq hq), (h.1 hf).2⟩, h.2⟩

theorem black_make_red {d : Side} (hx : red x) : Black red n (make d x s t) ↔ Black red n s ∧ Black red n t := by
  have hnode : ∀ l r : Bin α, Black red n (.node x l r) ↔ Black red n l ∧ Black red n r := by
    intro l r
    constructor
    · intro h
      cases h with
      | red _ hl hr => exact ⟨hl, hr⟩
      | black hb => exact absurd hx hb
    · rintro ⟨hl, hr⟩
      exact .red hx hl hr
  cases d
  · exact hnode s t
  · exact (hnode t s).trans and_comm

theorem black_make_black {d : Side} (hx : ¬ red x) : Black red (n + 1) (make d x s t) ↔ Black red n s ∧ Black red n t := by
  have hnode : ∀ l r : Bin α, Black red (n + 1) (.node x l r) ↔ Black red n l ∧ Black red n r := by
    intro l r
    constructor
    · intro h
      cases h with
      | red hr _ _ => exact absurd hr hx
      | black _ hl hr => exact ⟨hl, hr⟩
    · rintro ⟨hl, hr⟩
      exact .black hx hl hr
  cases d
  · exact hnode s t
  · exact (hnode t s).trans and_comm

/-- A tree with a black root has a black node on each path. -/
theorem Black.succ {d : Side} (h : Black red n (make d x s t)) (hx : ¬ red x) :
    ∃ m, n = m + 1 ∧ Black red m s ∧ Black red m t := by
  cases n with
  | zero => cases d <;> cases h <;> contradiction
  | succ m => exact ⟨m, rfl, (black_make_black hx).1 h⟩

/-- **Black nodes above a place**: only their number at the place matters. -/
theorem black_plug (h : Black red n (plug fs t)) :
    ∃ m, Black red m t ∧ ∀ s, Black red m s → Black red n (plug fs s) := by
  induction fs generalizing t with
  | nil => exact ⟨n, h, fun _ hs => hs⟩
  | cons f fs ih =>
    obtain ⟨m, hm, hrest⟩ := ih h
    by_cases hx : red f.x
    · obtain ⟨ht, hfar⟩ := (black_make_red hx).1 hm
      exact ⟨m, ht, fun s hs => hrest _ ((black_make_red hx).2 ⟨hs, hfar⟩)⟩
    · obtain ⟨k, rfl, ht, hfar⟩ := Black.succ hm hx
      exact ⟨k, ht, fun s hs => hrest _ ((black_make_black hx).2 ⟨hs, hfar⟩)⟩

/-- A tree with so many black nodes on each path is not too small, and not too high. -/
theorem Black.bounds (h : Black red n t) (hcalm : Calm red t) :
    2 ^ n ≤ t.size + 1 ∧ t.height ≤ 2 * n + 1 ∧ (¬ RedRoot red t → t.height ≤ 2 * n) := by
  induction h with
  | leaf => exact ⟨le_rfl, Nat.zero_le _, fun _ => le_rfl⟩
  | @red n x l r hx _ _ ihl ihr =>
    obtain ⟨hroots, hl, hr⟩ := hcalm
    obtain ⟨hsize, -, hheight⟩ := ihl hl
    obtain ⟨hsize', -, hheight'⟩ := ihr hr
    have := hheight (hroots hx).1
    have := hheight' (hroots hx).2
    refine ⟨?_, ?_, fun hno => absurd hx hno⟩ <;> simp only [size, height] <;> omega
  | @black n x l r _ _ _ ihl ihr =>
    obtain ⟨-, hl, hr⟩ := hcalm
    obtain ⟨hsize, hheight, -⟩ := ihl hl
    obtain ⟨hsize', hheight', -⟩ := ihr hr
    have hpow : 2 ^ (n + 1) = 2 ^ n + 2 ^ n := by rw [pow_succ, mul_two]
    refine ⟨?_, ?_, fun _ => ?_⟩ <;> simp only [size, height] <;> omega

/-- **A balanced tree is not high.** -/
theorem Balanced.height_le (h : Balanced red t) : t.height ≤ 2 * Nat.log2 (t.size + 1) := by
  obtain ⟨hcalm, hroot, n, hn⟩ := h
  obtain ⟨hsize, -, hheight⟩ := hn.bounds hcalm
  have hlog : n ≤ Nat.log2 (t.size + 1) := (Nat.le_log2 (Nat.succ_ne_zero _)).2 hsize
  have := hheight hroot
  omega

/-! ## A clash -/

/-- **Balanced but for one place**, where the root may be red as well as its parent. -/
structure Clash (red : α → Prop) (fs : List (Frame α)) (t : Bin α) : Prop where
  calm : Calm red t
  above : CalmAbove red False fs
  black : ∃ n, Black red n (plug fs t)

variable {f g : Frame α} {d e : Side} {x' y' z z' : α} {a b : Bin α}

/-- The grandparent is black if the parent is red. -/
theorem Clash.black_granpa (h : Clash red (f :: g :: fs) t) (hf : red f.x) :
    ¬ red g.x ∧ ¬ RedRoot red f.far ∧ Calm red f.far ∧ Calm red g.far ∧ CalmAbove red False fs := by
  obtain ⟨hfar, hcalm, hroot, hcalm', hfs⟩ := h.above
  have hg : ¬ red g.x := fun hred => (hroot hred).1 hf
  exact ⟨hg, (hfar hf).2, hcalm, hcalm', hfs.mono fun hno => hno.elim⟩

/-- **A red uncle**: the parent and the uncle become black and the grandparent red, and the clash goes up. -/
theorem Clash.recolored (h : Clash red (f :: g :: fs) t) (hf : red f.x) (hx' : ¬ red x') (hy' : red y') {far : Bin α}
    (hfar : Calm red far ∧ ¬ RedRoot red far) (hblack : ∀ n, Black red n g.far → Black red (n + 1) far) :
    Clash red fs (make g.side y' (make f.side x' t f.far) far) := by
  obtain ⟨hg, -, hcalm, -, hfs⟩ := h.black_granpa hf
  obtain ⟨n, hn⟩ := h.black
  have hplace : Black red n (plug fs (g.fill (f.fill t))) := hn
  obtain ⟨m, hm, hrest⟩ := black_plug hplace
  obtain ⟨k, rfl, hk, hfar'⟩ := Black.succ hm hg
  obtain ⟨ht, hffar⟩ := (black_make_red hf).1 hk
  refine ⟨calm_make.2 ⟨fun _ => ⟨?_, hfar.2⟩, calm_make.2 ⟨fun hred => absurd hred hx', h.calm, hcalm⟩, hfar.1⟩, hfs,
    n, hrest _ ?_⟩
  · rw [redRoot_make]
    exact hx'
  · exact (black_make_red hy').2 ⟨(black_make_black hx').2 ⟨ht, hffar⟩, hblack k hfar'⟩

/-- What a rotation makes of it, when the uncle is black. -/
theorem Clash.turned (h : Clash red (f :: g :: fs) t) (hf : red f.x) (hx' : ¬ red x') (hy' : red y')
    (hs : Calm red s) (hu : Calm red u ∧ ¬ RedRoot red u) (hfar : ¬ RedRoot red g.far)
    (hblack : ∀ n, Black red n (f.fill t) → Black red n s ∧ Black red n u) :
    Calm red (plug fs (make d x' s (make d y' u g.far))) ∧ ∃ n, Black red n (plug fs (make d x' s (make d y' u g.far))) := by
  obtain ⟨hg, -, -, hcalm', hfs⟩ := h.black_granpa hf
  obtain ⟨n, hn⟩ := h.black
  have hplace : Black red n (plug fs (g.fill (f.fill t))) := hn
  obtain ⟨m, hm, hrest⟩ := black_plug hplace
  obtain ⟨k, rfl, hk, hgfar⟩ := Black.succ hm hg
  obtain ⟨hs', hu'⟩ := hblack k hk
  refine ⟨calm_plug.2 ⟨?_, calm_make.2 ⟨fun hred => absurd hred hx', hs, calm_make.2 ⟨fun _ => ⟨hu.2, hfar⟩, hu.1, hcalm'⟩⟩⟩,
    n, hrest _ ?_⟩
  · refine hfs.mono fun hred => hx' ?_
    rwa [redRoot_make] at hred
  · exact (black_make_black hx').2 ⟨hs', (black_make_red hy').2 ⟨hu', hgfar⟩⟩

/-- **One rotation**, when the node and its parent are on the same side. -/
theorem Clash.outer (h : Clash red (⟨d, x, a⟩ :: ⟨d, y, b⟩ :: fs) t) (hx : red x) (hx' : ¬ red x') (hy' : red y')
    (hb : ¬ RedRoot red b) : Calm red (plug fs (make d x' t (make d y' a b))) ∧
      ∃ n, Black red n (plug fs (make d x' t (make d y' a b))) := by
  obtain ⟨-, hroot, hcalm, -⟩ := h.black_granpa hx
  exact h.turned hx hx' hy' h.calm ⟨hcalm, hroot⟩ hb fun n hn => (black_make_red hx).1 hn

/-- **Two rotations**, when they are not. -/
theorem Clash.inner (h : Clash red (⟨d.other, x, a⟩ :: ⟨d, y, b⟩ :: fs) (make d z u s)) (hx : red x) (hz : red z)
    (hz' : ¬ red z') (hy' : red y') (hb : ¬ RedRoot red b) :
    Calm red (plug fs (make d z' (make d x a u) (make d y' s b))) ∧
      ∃ n, Black red n (plug fs (make d z' (make d x a u) (make d y' s b))) := by
  obtain ⟨-, hroot, hcalm, -⟩ := h.black_granpa hx
  obtain ⟨hroots, hu, hs⟩ := calm_make.1 h.calm
  refine h.turned hx hz' hy' (calm_make.2 ⟨fun _ => ⟨hroot, (hroots hz).1⟩, hcalm, hu⟩) ⟨hs, (hroots hz).2⟩ hb fun n hn => ?_
  obtain ⟨hzn, han⟩ := (black_make_red hx).1 hn
  obtain ⟨hun, hsn⟩ := (black_make_red hz).1 hzn
  exact ⟨(black_make_red hx).2 ⟨han, hun⟩, hsn⟩

/-- No clash is left when the parent is black. -/
theorem Clash.calm_of_black (h : Clash red fs t) (hfs : ∀ f gs, fs = f :: gs → ¬ red f.x) : Calm red (plug fs t) := by
  refine calm_plug.2 ⟨?_, h.calm⟩
  cases fs with
  | nil => trivial
  | cons f fs =>
    obtain ⟨-, hcalm, hrest⟩ := h.above
    exact ⟨fun hred => absurd hred (hfs f fs rfl), hcalm, hrest⟩

end Balance

end Trees
