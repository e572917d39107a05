import Vdetelweb.Proof.TreeRuns

/-!
# Walks through the trees of the stack

`pico_tree_next` and `pico_tree_prev` come to the nodes in order (`nextNode_spec`, `prevNode_spec`), so
the macros come to each key once, in order or in the reverse order (`treeRun_foreach`). The safe macros
do as well when their bodies delete keys on the way, and what is left is what was not deleted
(`treeRun_foreachSafe`): a deletion puts nodes at other places, but no key in another node.
-/

namespace Vdetelweb

open Function Trees Bin

variable {K : Type}

namespace PicoTree

variable {t : PicoTree K} {W : Bin (TreeNode K)} {E : List (ℕ × K)} {compare : K → K → ℤ} {rank : K → ℤ}
  {fs : List (Frame (TreeNode K))} {T l r : Bin (TreeNode K)} {x : TreeNode K} {U : Set K} {d : Side}

/-- The first address, or that of `LEAF`. -/
def headPtr (xs : List (TreeNode K)) : ℕ := (xs.map Prod.fst).headD LEAF

/-- The last one. -/
def lastPtr (xs : List (TreeNode K)) : ℕ := headPtr xs.reverse

/-! ## The next node -/

/-- **The way up** from a node that is last in its tree. -/
theorem nextLoop_spec (h : Stands t (plug fs T)) (hT : ptr T ≠ LEAF) {turns : ℕ} (hturns : fs.length < turns) :
    t.nextLoop turns (ptr T) = some (headPtr (after fs)) := by
  induction fs generalizing T turns with
  | nil =>
    obtain ⟨turns, rfl⟩ : ∃ n, turns = n + 1 := ⟨turns - 1, by omega⟩
    obtain ⟨n, hn, hparent⟩ := h.parent hT
    rw [nextLoop, hn, Option.bind_eq_bind, Option.bind_some, hparent, up_nil, if_pos rfl]
    rfl
  | cons f fs ih =>
    obtain ⟨turns, rfl⟩ : ∃ n, turns = n + 1 := ⟨turns - 1, by omega⟩
    obtain ⟨n, hn, hparent⟩ := h.parent hT
    have hf := h.frame
    have hne := h.far_ne hT
    rw [nextLoop, hn, Option.bind_eq_bind, Option.bind_some, hparent, up_cons, if_neg hf.1, hf.2, Option.bind_some]
    obtain ⟨d, y, far⟩ := f
    cases d with
    | left =>
      rw [Cell.of, if_neg hne]
      rfl
    | right =>
      -- what is after the node is after its parent
      have hplace : Stands t (plug fs (make .right y T far)) := h
      rw [List.length_cons] at hturns
      rw [Cell.of, if_pos rfl]
      exact ih hplace hf.1 (by omega)

/-- **The way up** from a node that is first in its tree. -/
theorem prevLoop_spec (h : Stands t (plug fs T)) (hT : ptr T ≠ LEAF) {turns : ℕ} (hturns : fs.length < turns) :
    t.prevLoop turns (ptr T) = some (lastPtr (before fs)) := by
  induction fs generalizing T turns with
  | nil =>
    obtain ⟨turns, rfl⟩ : ∃ n, turns = n + 1 := ⟨turns - 1, by omega⟩
    obtain ⟨n, hn, hparent⟩ := h.parent hT
    obtain ⟨c, hc⟩ := h.leaf
    have hchild : (leafNode c : PicoTreeNode K).leftChild = LEAF := rfl
    rw [prevLoop, hn, Option.bind_eq_bind, Option.bind_some, hparent, up_nil, if_neg hT, hc, Option.bind_some, hchild, if_neg hT]
    rfl
  | cons f fs ih =>
    obtain ⟨turns, rfl⟩ : ∃ n, turns = n + 1 := ⟨turns - 1, by omega⟩
    obtain ⟨n, hn, hparent⟩ := h.parent hT
    have hf := h.frame
    have hne := h.far_ne hT
    rw [prevLoop, hn, Option.bind_eq_bind, Option.bind_some, hparent, up_cons, if_neg hT, hf.2, Option.bind_some]
    obtain ⟨d, y, far⟩ := f
    cases d with
    | right =>
      rw [Cell.of, if_neg hne, before_cons, Frame.before, lastPtr, List.reverse_append, List.reverse_append]
      rfl
    | left =>
      have hplace : Stands t (plug fs (make .left y T far)) := h
      rw [List.length_cons] at hturns
      rw [Cell.of, if_pos rfl, before_cons, Frame.before, List.append_nil]
      exact ih hplace hf.1 (by omega)

/-- **`pico_tree_next`.** -/
theorem nextNode_spec (h : Stands t (plug fs (.node x l r))) (hsize : (plug fs (.node x l r)).size < t.next) :
    t.nextNode x.1 = some (headPtr (r.inorder ++ after fs)) := by
  have hx : t.node x.1 = some ⟨up fs, ptr l, ptr r, x.2⟩ := (Stands.cell (d := .left) h).2
  have hplace := length_le_size fs (.node x l r)
  have hheight := r.height_le_size
  rw [Bin.size] at hplace
  have hloop : t.nextLoop (t.next + 1) x.1 = some (headPtr (after fs)) :=
    nextLoop_spec h (Stands.cell (d := .left) h).1 (by omega)
  unfold nextNode
  rw [hx, Option.bind_eq_bind, Option.bind_some]
  cases r with
  | leaf =>
    rw [ptr_leaf, if_pos rfl, nextAbove, inorder_leaf, List.nil_append]
    cases fs with
    | nil =>
      rw [up_nil, if_pos rfl]
      exact hloop
    | cons f fs =>
      have hf := h.frame
      rw [up_cons, if_neg hf.1, hf.2, Option.bind_eq_bind, Option.bind_some, hloop]
      obtain ⟨d, y, far⟩ := f
      cases d with
      | left =>
        have hleft : (Cell.of .left (up fs) (ptr (.node x l .leaf)) (ptr far) y.2).leftChild = x.1 := rfl
        rw [hleft, if_pos rfl]
        rfl
      | right =>
        have hne : x.1 ≠ ptr far := h.far_ne (Stands.cell (d := .left) h).1
        have hleft : (Cell.of .right (up fs) (ptr (.node x l .leaf)) (ptr far) y.2).leftChild = ptr far := rfl
        rw [hleft, if_neg hne]
  | node y a b =>
    have hright : Stands t (plug (⟨.right, x, l⟩ :: fs) (.node y a b)) := h
    have hy : ptr (.node y a b) ≠ LEAF := (Stands.cell (d := .left) hright).1
    obtain ⟨gs, z, u, hfirst, hplug, hgs⟩ := endLoop_spec .left hright (fun he => by cases he)
      (show (Bin.node y a b).height < t.next + 1 by omega)
    rw [if_neg hy, firstNode, hfirst, hplug, inorder_plug, before_of_left hgs]
    rfl

/-- **`pico_tree_prev`.** -/
theorem prevNode_spec (h : Stands t (plug fs (.node x l r))) (hsize : (plug fs (.node x l r)).size < t.next) :
    t.prevNode x.1 = some (lastPtr (before fs ++ l.inorder)) := by
  have hx : t.node x.1 = some ⟨up fs, ptr l, ptr r, x.2⟩ := (Stands.cell (d := .left) h).2
  have hplace := length_le_size fs (.node x l r)
  have hheight := l.height_le_size
  rw [Bin.size] at hplace
  have hloop : t.prevLoop (t.next + 1) x.1 = some (lastPtr (before fs)) :=
    prevLoop_spec h (Stands.cell (d := .left) h).1 (by omega)
  unfold prevNode
  rw [hx, Option.bind_eq_bind, Option.bind_some]
  cases l with
  | leaf =>
    rw [ptr_leaf, if_pos rfl, prevAbove, inorder_leaf, List.append_nil]
    cases fs with
    | nil =>
      rw [up_nil, if_pos rfl]
      exact hloop
    | cons f fs =>
      have hf := h.frame
      rw [up_cons, if_neg hf.1, hf.2, Option.bind_eq_bind, Option.bind_some, hloop]
      obtain ⟨d, y, far⟩ := f
      cases d with
      | right =>
        have hright : (Cell.of .right (up fs) (ptr (.node x .leaf r)) (ptr far) y.2).rightChild = x.1 := rfl
        rw [hright, if_pos rfl, before_cons, Frame.before, lastPtr, List.reverse_append, List.reverse_append]
        rfl
      | left =>
        have hne : x.1 ≠ ptr far := h.far_ne (Stands.cell (d := .left) h).1
        have hright : (Cell.of .left (up fs) (ptr (.node x .leaf r)) (ptr far) y.2).rightChild = ptr far := rfl
        rw [hright, if_neg hne]
  | node y a b =>
    have hleft : Stands t (plug (⟨.left, x, r⟩ :: fs) (.node y a b)) := h
    have hy : ptr (.node y a b) ≠ LEAF := (Stands.cell (d := .left) hleft).1
    obtain ⟨gs, z, u, hlast, hplug, hgs⟩ := endLoop_spec .right hleft (fun he => by cases he)
      (show (Bin.node y a b).height < t.next + 1 by omega)
    rw [if_neg hy, lastNode, hlast, hplug, inorder_plug, after_of_right hgs, make, inorder_node, inorder_leaf,
      List.append_nil, lastPtr, List.reverse_append, List.reverse_append, List.reverse_append]
    rfl

/-! ## Walks -/

/-- The entries on the way. -/
def onWay (d : Side) (E : List (ℕ × K)) : List (ℕ × K) :=
  match d with
  | .right => E
  | .left => E.reverse

@[simp] theorem onWay_onWay (d : Side) (E : List (ℕ × K)) : onWay d (onWay d E) = E := by
  cases d
  · exact List.reverse_reverse E
  · rfl

theorem mem_onWay {e : ℕ × K} : e ∈ onWay d E ↔ e ∈ E := by
  cases d
  · exact List.mem_reverse
  · exact Iff.rfl

theorem length_onWay (d : Side) (E : List (ℕ × K)) : (onWay d E).length = E.length := by
  cases d
  · exact List.length_reverse
  · rfl

/-- The address of the first entry, or that of `LEAF`. -/
def headAddr (E : List (ℕ × K)) : ℕ := (E.map Prod.fst).headD LEAF

/-- **The node of an entry**, at its place. -/
theorem Holds.place (h : Holds t W E) {E₁ E₂ : List (ℕ × K)} {e : ℕ × K} (hE : E = E₁ ++ e :: E₂) :
    ∃ fs x l r, W = plug fs (.node x l r) ∧ x.1 = e.1 ∧ x.2.keyValue = some e.2 ∧
      (before fs ++ l.inorder).map Prod.fst = E₁.map Prod.fst ∧ (r.inorder ++ after fs).map Prod.fst = E₂.map Prod.fst := by
  have hkeys := h.keys
  have hfst : ∀ (xs : List (TreeNode K)) (E : List (ℕ × K)), (xs.map fun x => (x.1, x.2.keyValue)) = entries E →
      xs.map Prod.fst = E.map Prod.fst := by
    intro xs E hxs
    have := congrArg (List.map Prod.fst) hxs
    rw [List.map_map, entries, List.map_map] at this
    exact this
  have hsplit : (W.inorder.map fun x => (x.1, x.2.keyValue)) = entries E₁ ++ (e.1, some e.2) :: entries E₂ := by
    rw [hE, PicoTree.keys] at hkeys
    rw [hkeys, entries, List.map_append, List.map_cons]
    rfl
  obtain ⟨as, bs, hW, has, hbs⟩ := List.map_eq_append_iff.1 hsplit
  obtain ⟨x, bs, rfl, hx, hbs⟩ := List.map_eq_cons_iff.1 hbs
  obtain ⟨ha, hk⟩ := Prod.mk.inj hx
  obtain ⟨fs, l, r, hplug, hbefore, hafter⟩ := exists_place hW
  refine ⟨fs, x, l, r, hplug, ha, hk, ?_, ?_⟩
  · rw [hbefore]
    exact hfst as E₁ has
  · rw [hafter]
    exact hfst bs E₂ hbs

/-- **A step** on the way. -/
theorem Holds.stepNode (h : Holds t W E) {E₁ E₂ : List (ℕ × K)} {e : ℕ × K} (hE : onWay d E = E₁ ++ e :: E₂) :
    t.stepNode d e.1 = some (headAddr E₂) ∧ e.1 ≠ LEAF ∧ ∃ n, t.node e.1 = some n ∧ n.value.keyValue = some e.2 := by
  have hwhole := h.size_lt
  have hcell : ∀ {fs : List (Frame (TreeNode K))} {x l r}, W = plug fs (.node x l r) → x.1 = e.1 → x.2.keyValue = some e.2 →
      e.1 ≠ LEAF ∧ ∃ n, t.node e.1 = some n ∧ n.value.keyValue = some e.2 := by
    rintro fs x l r rfl ha hk
    have hx := Stands.cell (d := .left) h.stands
    rw [← ha]
    exact ⟨hx.1, _, hx.2, hk⟩
  cases d with
  | right =>
    obtain ⟨fs, x, l, r, hplug, ha, hk, -, hafter⟩ := h.place hE
    refine ⟨?_, hcell hplug ha hk⟩
    subst hplug
    show t.nextNode e.1 = _
    rw [← ha, nextNode_spec h.stands hwhole, headPtr, hafter]
    rfl
  | left =>
    have hreverse : E = E₂.reverse ++ e :: E₁.reverse := by
      rw [← List.reverse_reverse E, show E.reverse = _ from hE, List.reverse_append, List.reverse_cons, List.append_assoc]
      rfl
    obtain ⟨fs, x, l, r, hplug, ha, hk, hbefore, -⟩ := h.place hreverse
    refine ⟨?_, hcell hplug ha hk⟩
    subst hplug
    show t.prevNode e.1 = _
    rw [← ha, prevNode_spec h.stands hwhole, lastPtr, headPtr, List.map_reverse, hbefore, ← List.map_reverse,
      List.reverse_reverse]
    rfl

/-- **`pico_tree_lastNode`** of the root. -/
theorem Holds.lastNode (h : Holds t W E) : t.lastNode t.root = some (headAddr E.reverse) := by
  rcases h.endLoop .right with ⟨rfl, hloop⟩ | ⟨fs, x, r, rfl, hloop, hfs⟩
  · exact hloop
  · obtain ⟨E₁, e, E₂, rfl, ha, -, -, hE₂⟩ := Holds.split (r := .leaf) h
    rw [after_of_right hfs] at hE₂
    obtain rfl : E₂ = [] := List.map_eq_nil_iff.1 hE₂
    rw [PicoTree.lastNode, hloop, ← ha, List.reverse_append]
    rfl

theorem Holds.startNode (h : Holds t W E) (d : Side) : t.startNode d t.root = some (headAddr (onWay d E)) := by
  cases d
  · exact h.lastNode
  · exact h.firstNode

/-- **The loop of the macros.** -/
theorem Holds.foreachLoop (h : Holds t W E) {E₁ E₂ : List (ℕ × K)} (hE : onWay d E = E₁ ++ E₂) {turns : ℕ}
    (hturns : E₂.length < turns) :
    t.foreachLoop d turns (headAddr E₂) = some (E₂.map fun e => some e.2) := by
  induction E₂ generalizing E₁ turns with
  | nil =>
    obtain ⟨turns, rfl⟩ : ∃ n, turns = n + 1 := ⟨turns - 1, by omega⟩
    exact if_pos rfl
  | cons e E₂ ih =>
    obtain ⟨turns, rfl⟩ : ∃ n, turns = n + 1 := ⟨turns - 1, by omega⟩
    obtain ⟨hstep, hne, n, hn, hk⟩ := h.stepNode hE
    rw [List.length_cons] at hturns
    have hpassed : onWay d E = (E₁ ++ [e]) ++ E₂ := by
      rw [hE, List.append_assoc]
      rfl
    have hrest := ih hpassed (Nat.lt_of_succ_lt_succ hturns)
    have hhead : headAddr (e :: E₂) = e.1 := rfl
    rw [PicoTree.foreachLoop, hhead, if_neg hne]
    simp only [hn, hstep, hrest, hk, Option.bind_eq_bind, Option.bind_some, List.map_cons]

/-- **`pico_tree_foreach`** and the reverse. -/
theorem Holds.foreach (h : Holds t W E) (d : Side) : t.foreach d = some ((onWay d E).map fun e => some e.2) := by
  have hturns : (onWay d E).length < t.next + 1 := by
    have := h.size_lt
    rw [h.size_eq] at this
    rw [length_onWay]
    omega
  unfold PicoTree.foreach
  rw [h.startNode d, Option.bind_eq_bind, Option.bind_some]
  have hstart : onWay d E = [] ++ onWay d E := rfl
  exact h.foreachLoop hstart hturns

/-- A deletion of the entry `e`. -/
theorem Reached.delete_entry (hU : Agrees compare rank U) (h : Reached rank U t W E) {E₁ E₂ : List (ℕ × K)} {e : ℕ × K}
    (hE : onWay d E = E₁ ++ e :: E₂) : ∃ t' W' E', t.delete compare e.2 = some (some e.2, t') ∧ Reached rank U t' W' E' ∧
      onWay d E' = E₁ ++ E₂ ∧ t'.next = t.next := by
  have he : e ∈ E := by
    rw [← mem_onWay (d := d), hE]
    exact List.mem_append_right _ List.mem_cons_self
  rcases h.delete h.sorted hU h.within (h.within e he) with ⟨-, hlacks⟩ | ⟨t', W', A, e', B, hdelete, rfl, hrank, h', hnext⟩
  · exact absurd rfl (hlacks e he)
  · obtain ⟨hA, hB, hsorted⟩ := h.sorted.around
    have heq : e = e' := by
      rcases List.mem_append.1 he with he | he
      · exact absurd hrank (hA e he).ne'
      · rcases List.mem_cons.1 he with rfl | he
        · rfl
        · exact absurd hrank (hB e he).ne
    subst heq
    have hnotA : e ∉ A := fun hmem => (hA e hmem).ne rfl
    have hnotB : e ∉ B := fun hmem => (hB e hmem).ne rfl
    refine ⟨t', W', A ++ B, hdelete, ⟨h', hsorted, fun e' he' => h.within e' ?_⟩, ?_, hnext⟩
    · rcases List.mem_append.1 he' with he' | he'
      · exact List.mem_append_left _ he'
      · exact List.mem_append_right _ (List.mem_cons_of_mem _ he')
    · cases d with
      | right =>
        obtain ⟨rfl, -, rfl⟩ := (List.append_cons_inj_of_notMem hnotA hnotB).1 hE
        rfl
      | left =>
        have hreverse : B.reverse ++ e :: A.reverse = E₁ ++ e :: E₂ := by
          rw [← hE, onWay, List.reverse_append, List.reverse_cons, List.append_assoc]
          rfl
        obtain ⟨rfl, -, rfl⟩ := (List.append_cons_inj_of_notMem (mt List.mem_reverse.1 hnotB)
          (mt List.mem_reverse.1 hnotA)).1 hreverse
        exact List.reverse_append

/-- **The loop of the safe macros.** What was passed is `E₁`, and what is to come is `E₂`. -/
theorem Reached.foreachSafeLoop (hU : Agrees compare rank U) (p : K → Bool) (h : Reached rank U t W E)
    {E₁ E₂ : List (ℕ × K)} (hE : onWay d E = E₁ ++ E₂) {turns : ℕ} (hturns : E₂.length < turns) :
    ∃ t' W' E', foreachSafeLoop compare p d turns (headAddr E₂) t = some (E₂.map Prod.snd, t') ∧ Reached rank U t' W' E' ∧
      onWay d E' = E₁ ++ E₂.filter fun e => !p e.2 := by
  induction E₂ generalizing t W E E₁ turns with
  | nil =>
    obtain ⟨turns, rfl⟩ : ∃ n, turns = n + 1 := ⟨turns - 1, by omega⟩
    exact ⟨t, W, E, if_pos rfl, h, hE⟩
  | cons e E₂ ih =>
    obtain ⟨turns, rfl⟩ : ∃ n, turns = n + 1 := ⟨turns - 1, by omega⟩
    obtain ⟨hstep, hne, n, hn, hk⟩ := h.stepNode hE
    rw [List.length_cons] at hturns
    have hhead : headAddr (e :: E₂) = e.1 := rfl
    rw [PicoTree.foreachSafeLoop, hhead, if_neg hne]
    cases hp : p e.2 with
    | true =>
      -- the next node was read before the deletion, and it is where it was
      obtain ⟨t₁, W₁, A, hdelete, h₁, hA, -⟩ := h.delete_entry hU hE
      obtain ⟨t₂, W₂, B, hloop, h₂, hB⟩ := ih h₁ hA (Nat.lt_of_succ_lt_succ hturns)
      refine ⟨t₂, W₂, B, ?_, h₂, ?_⟩
      · simp only [hstep, hn, hk, hp, hdelete, hloop, if_true, Option.bind_eq_bind, Option.bind_some, List.map_cons]
      · rw [hB, List.filter_cons, hp]
        rfl
    | false =>
      have hpassed : onWay d E = (E₁ ++ [e]) ++ E₂ := by
        rw [hE, List.append_assoc]
        rfl
      obtain ⟨t₂, W₂, B, hloop, h₂, hB⟩ := ih h hpassed (Nat.lt_of_succ_lt_succ hturns)
      refine ⟨t₂, W₂, B, ?_, h₂, ?_⟩
      · simp only [hstep, hn, hk, hp, hloop, Bool.false_eq_true, if_false, Option.bind_eq_bind, Option.bind_some,
          List.map_cons]
      · rw [hB, List.filter_cons, hp, List.append_assoc]
        rfl

/-- **`pico_tree_foreach_safe`** and the reverse. -/
theorem Reached.foreachSafe (hU : Agrees compare rank U) (p : K → Bool) (h : Reached rank U t W E) (d : Side) :
    ∃ t' W' E', t.foreachSafe compare p d = some ((onWay d E).map Prod.snd, t') ∧ Reached rank U t' W' E' ∧
      onWay d E' = (onWay d E).filter fun e => !p e.2 := by
  have hturns : (onWay d E).length < t.next + 1 := by
    have := h.size_lt
    rw [h.size_eq] at this
    rw [length_onWay]
    omega
  unfold PicoTree.foreachSafe
  rw [h.startNode d, Option.bind_eq_bind, Option.bind_some]
  have hstart : onWay d E = [] ++ onWay d E := rfl
  exact h.foreachSafeLoop hU p hstart hturns

/-! ## Runs -/

/-- The keys are in order on the way. -/
def InWay (rank : K → ℤ) (d : Side) (ks : List K) : Prop :=
  ks.Pairwise fun k k' => match d with
    | .right => rank k < rank k'
    | .left => rank k' < rank k

/-- **The keys on the way**, each of them once. -/
theorem Reached.onWay (h : Reached rank U t W E) (d : Side) : InWay rank d ((onWay d E).map Prod.snd) ∧
    ∀ k, k ∈ (PicoTree.onWay d E).map Prod.snd ↔ k ∈ contents E := by
  refine ⟨?_, fun k => ?_⟩
  · rw [InWay, List.pairwise_map]
    cases d with
    | right => exact h.sorted
    | left => exact List.pairwise_reverse.2 h.sorted
  · rw [mem_contents, List.mem_map]
    exact exists_congr fun e => and_congr_left fun _ => mem_onWay

theorem Reached.foreach_keys (h : Reached rank U t W E) (d : Side) :
    t.foreach d = some (((PicoTree.onWay d E).map Prod.snd).map some) := by
  rw [h.foreach d, List.map_map]
  rfl

/-- **`pico_tree_foreach` and `pico_tree_foreach_reverse`** come to each key of the set once, in order or in
the reverse order, after any calls. -/
theorem treeRun_foreach (hU : Agrees compare rank U) (cs : List (Call K))
    (hcs : ∀ c ∈ cs, ∀ key, c.about = some key → key ∈ U) (color : Color) (d : Side) :
    ∃ answers t S ks, run compare (PicoTree.empty color) cs = some (answers, t) ∧ SetRun rank ∅ cs answers S ∧
      t.foreach d = some (ks.map some) ∧ InWay rank d ks ∧ ∀ k, k ∈ ks ↔ k ∈ S := by
  obtain ⟨answers, t, W, E, hrun, hset, h, -⟩ := run_spec hU cs hcs (reached_empty rank U color)
  rw [contents_nil] at hset
  obtain ⟨hway, hmem⟩ := h.onWay d
  exact ⟨answers, t, contents E, _, hrun, hset, h.foreach_keys d, hway, hmem⟩

theorem treeRun_foreach_integers : ∃ answers t S ks,
    run (fun a b : ℤ => a - b) (PicoTree.empty .BLACK) [.insert true 3, .insert true 5, .delete 3] = some (answers, t) ∧
      SetRun id ∅ [.insert true 3, .insert true 5, .delete 3] answers S ∧
      t.foreach .left = some (ks.map some) ∧ InWay id .left ks ∧ ∀ k, k ∈ ks ↔ k ∈ S :=
  treeRun_foreach (agrees_sub Set.univ) _ (fun _ _ _ _ => trivial) .BLACK .left

/-- **`pico_tree_foreach_safe` and the reverse**: a body that deletes some of the keys is run once for each of
them, in order, and what is left in the tree are the others. -/
theorem treeRun_foreachSafe (hU : Agrees compare rank U) (cs : List (Call K))
    (hcs : ∀ c ∈ cs, ∀ key, c.about = some key → key ∈ U) (color : Color) (p : K → Bool) (d : Side) :
    ∃ answers t S ks t', run compare (PicoTree.empty color) cs = some (answers, t) ∧ SetRun rank ∅ cs answers S ∧
      t.foreachSafe compare p d = some (ks, t') ∧ InWay rank d ks ∧ (∀ k, k ∈ ks ↔ k ∈ S) ∧
      t'.foreach d = some ((ks.filter fun k => !p k).map some) ∧
      {a | (t'.node a).isSome}.ncard = (ks.filter fun k => !p k).length + 1 := by
  obtain ⟨answers, t, W, E, hrun, hset, h, -⟩ := run_spec hU cs hcs (reached_empty rank U color)
  rw [contents_nil] at hset
  obtain ⟨hway, hmem⟩ := h.onWay d
  obtain ⟨t', W', E', hsafe, h', hleft⟩ := h.foreachSafe hU p d
  have hkeys : (PicoTree.onWay d E').map Prod.snd = ((PicoTree.onWay d E).map Prod.snd).filter fun k => !p k := by
    rw [hleft, List.filter_map]
    rfl
  refine ⟨answers, t, contents E, _, t', hrun, hset, hsafe, hway, hmem, ?_, ?_⟩
  · rw [h'.foreach_keys d, hkeys]
  · rw [h'.ncard_live, ← hkeys, List.length_map, length_onWay]

theorem treeRun_foreachSafe_integers : ∃ answers t S ks t',
    run (fun a b : ℤ => a - b) (PicoTree.empty .BLACK) [.insert true 3, .insert true 5] = some (answers, t) ∧
      SetRun id ∅ [.insert true 3, .insert true 5] answers S ∧
      t.foreachSafe (fun a b : ℤ => a - b) (fun k => k = 3) .right = some (ks, t') ∧ InWay id .right ks ∧
      (∀ k, k ∈ ks ↔ k ∈ S) ∧ t'.foreach .right = some ((ks.filter fun k => !decide (k = 3)).map some) ∧
      {a | (t'.node a).isSome}.ncard = (ks.filter fun k => !decide (k = 3)).length + 1 :=
  treeRun_foreachSafe (agrees_sub Set.univ) _ (fun _ _ _ _ => trivial) .BLACK (fun k => k = 3) .right

end PicoTree

end Vdetelweb
