import Vdetelweb.Proof.TreeDelete

/-!
# The trees of the stack are ordered sets

`Holds` is what every call keeps: the tree stands, its nodes are what is allocated, and its keys are in
order. So the trees are sets of keys in any run of calls, whatever allocations fail (`treeRun_sets`), and
as long as nothing is deleted a search is short (`treeRun_short`). A deletion does not keep the tree
balanced: the loop after it stops at `LEAF`.
-/

namespace Vdetelweb

open Function Trees Bin

variable {K : Type}

namespace PicoTree

variable {t t' : PicoTree K} {W : Bin (TreeNode K)} {E : List (ℕ × K)} {compare : K → K → ℤ} {rank : K → ℤ} {key : K}
  {fs : List (Frame (TreeNode K))} {T l r : Bin (TreeNode K)} {x : TreeNode K} {U : Set K}

/-- The entries, as they are in the nodes. -/
def entries (E : List (ℕ × K)) : List (ℕ × Option K) := E.map fun e => (e.1, some e.2)

/-- **The tree holds the entries**: they are its nodes, and nothing else is allocated. -/
structure Holds (t : PicoTree K) (W : Bin (TreeNode K)) (E : List (ℕ × K)) : Prop where
  stands : Stands t W
  keys : keys W = entries E
  live : ∀ a, (t.node a).isSome ↔ a = LEAF ∨ a ∈ E.map Prod.fst
  bound : ∀ a, (t.node a).isSome → a < t.next

/-- The comparison is that of the ranks, for these keys. -/
def Agrees (compare : K → K → ℤ) (rank : K → ℤ) (U : Set K) : Prop :=
  ∀ a ∈ U, ∀ b ∈ U, (compare a b < 0 ↔ rank a < rank b) ∧ (compare a b = 0 ↔ rank a = rank b)

/-- The entries are in order. -/
def Sorted (rank : K → ℤ) (E : List (ℕ × K)) : Prop := E.Pairwise fun e e' => rank e.2 < rank e'.2

theorem Holds.addrs_eq (h : Holds t W E) : addrs W = E.map Prod.fst := by
  rw [addrs_eq_keys, h.keys, entries, List.map_map]
  rfl

theorem Holds.size_eq (h : Holds t W E) : W.size = E.length := by
  have hlength := congrArg List.length h.addrs_eq
  rw [addrs, List.length_map, List.length_map, length_inorder] at hlength
  exact hlength

/-- There are fewer nodes than addresses. -/
theorem Holds.size_lt (h : Holds t W E) : W.size < t.next := by
  have hsub : (LEAF :: addrs W).toFinset ⊆ Finset.range t.next := by
    intro a ha
    rw [List.mem_toFinset, List.mem_cons, h.addrs_eq] at ha
    exact Finset.mem_range.2 (h.bound a ((h.live a).2 ha))
  have hcard := Finset.card_le_card hsub
  rw [List.toFinset_card_of_nodup (List.nodup_cons.2 ⟨h.stands.leaf_notMem, h.stands.nodup⟩), List.length_cons,
    Finset.card_range, addrs, List.length_map, length_inorder] at hcard
  exact hcard

/-- A node of the tree is an entry. -/
theorem Holds.entry (h : Holds t W E) (hx : x ∈ W.inorder) : ∃ e ∈ E, e.1 = x.1 ∧ x.2.keyValue = some e.2 := by
  have hmem : (x.1, x.2.keyValue) ∈ PicoTree.keys W := List.mem_map_of_mem hx
  rw [h.keys] at hmem
  obtain ⟨e, he, heq⟩ := List.mem_map.1 hmem
  obtain ⟨ha, hk⟩ := Prod.mk.inj heq
  exact ⟨e, he, ha, hk.symm⟩

/-- **Any of the keys can be looked for.** -/
theorem Holds.searchable (h : Holds t W E) (hsorted : Sorted rank E) (hU : Agrees compare rank U)
    (hE : ∀ e ∈ E, e.2 ∈ U) (hkey : key ∈ U) : Searchable compare rank key W where
  compares x hx := by
    obtain ⟨e, he, -, hk⟩ := h.entry hx
    obtain ⟨hlt, heq⟩ := hU e.2 (hE e he) key hkey
    exact ⟨e.2, hk, hlt, heq, (hU key hkey e.2 (hE e he)).1⟩
  sorted := by
    have hkeys : (PicoTree.keys W).Pairwise fun p q => ∀ k k', p.2 = some k → q.2 = some k' → rank k < rank k' := by
      rw [h.keys, entries, List.pairwise_map]
      refine hsorted.imp fun hlt k k' hk hk' => ?_
      rwa [← Option.some.inj hk, ← Option.some.inj hk']
    rw [PicoTree.keys, List.pairwise_map] at hkeys
    exact hkeys

/-- No entry has the key. -/
theorem Holds.lacks_iff (h : Holds t W E) : Lacks rank key W ↔ ∀ e ∈ E, rank e.2 ≠ rank key := by
  constructor
  · intro hlacks e he
    have hmem : (e.1, some e.2) ∈ PicoTree.keys W := by
      rw [h.keys]
      exact List.mem_map_of_mem he
    obtain ⟨x, hx, heq⟩ := List.mem_map.1 hmem
    exact hlacks x hx e.2 (Prod.mk.inj heq).2
  · intro hE x hx k hk
    obtain ⟨e, he, -, hk'⟩ := h.entry hx
    rw [← Option.some.inj (hk'.symm.trans hk)]
    exact hE e he

/-- **A node of the tree and the entries around it.** -/
theorem Holds.split (h : Holds t (plug fs (.node x l r)) E) : ∃ E₁ e E₂, E = E₁ ++ e :: E₂ ∧ e.1 = x.1 ∧
    x.2.keyValue = some e.2 ∧ entries E₁ = (before fs).map (fun x => (x.1, x.2.keyValue)) ++ PicoTree.keys l ∧
    entries E₂ = PicoTree.keys r ++ (after fs).map (fun x => (x.1, x.2.keyValue)) := by
  have hkeys : entries E = ((before fs).map (fun x => (x.1, x.2.keyValue)) ++ PicoTree.keys l) ++
      (x.1, x.2.keyValue) :: (PicoTree.keys r ++ (after fs).map fun x => (x.1, x.2.keyValue)) := by
    rw [← h.keys, keys_plug, keys_node]
    simp only [List.append_assoc, List.cons_append]
  obtain ⟨E₁, E₂', rfl, hE₁, hE₂'⟩ := List.map_eq_append_iff.1 hkeys
  obtain ⟨e, E₂, rfl, he, hE₂⟩ := List.map_eq_cons_iff.1 hE₂'
  obtain ⟨ha, hk⟩ := Prod.mk.inj he
  exact ⟨E₁, e, E₂, rfl, ha, hk.symm, hE₁, hE₂⟩

/-! ## Searches -/

/-- **`pico_tree_findNode`.** -/
theorem Holds.findNode (h : Holds t W E) (hsorted : Sorted rank E) (hU : Agrees compare rank U)
    (hE : ∀ e ∈ E, e.2 ∈ U) (hkey : key ∈ U) :
    (t.findNode compare key = some none ∧ ∀ e ∈ E, rank e.2 ≠ rank key) ∨
    ∃ fs x l r, t.findNode compare key = some (some x.1) ∧ W = plug fs (.node x l r) ∧
      ∀ k, x.2.keyValue = some k → rank k = rank key := by
  have hwhole : Stands t (plug [] W) := h.stands
  have hturns : W.height < t.next + 1 := by
    have := W.height_le_size
    have := h.size_lt
    omega
  unfold PicoTree.findNode
  rw [h.stands.root]
  rcases findLoop_spec hwhole (h.searchable hsorted hU hE hkey) hturns with ⟨hnone, hlacks⟩ |
    ⟨gs, x, l, r, k, hfound, hplug, hk, hrank⟩
  · exact Or.inl ⟨hnone, h.lacks_iff.1 hlacks⟩
  · refine Or.inr ⟨gs, x, l, r, hfound, hplug.symm, fun k' hk' => ?_⟩
    rw [← hrank, Option.some.inj (hk'.symm.trans hk)]

/-- **`pico_tree_findKey`.** -/
theorem Holds.findKey (h : Holds t W E) (hsorted : Sorted rank E) (hU : Agrees compare rank U)
    (hE : ∀ e ∈ E, e.2 ∈ U) (hkey : key ∈ U) :
    (t.findKey compare key = some none ∧ ∀ e ∈ E, rank e.2 ≠ rank key) ∨
    ∃ e ∈ E, t.findKey compare key = some (some e.2) ∧ rank e.2 = rank key := by
  unfold PicoTree.findKey
  rcases h.findNode hsorted hU hE hkey with ⟨hnone, hlacks⟩ | ⟨fs, x, l, r, hfound, rfl, hrank⟩
  · rw [hnone]
    exact Or.inl ⟨rfl, hlacks⟩
  · have hcell := (Stands.cell (d := .left) h.stands).2
    obtain ⟨E₁, e, E₂, rfl, -, hk, -⟩ := h.split
    refine Or.inr ⟨e, List.mem_append_right E₁ List.mem_cons_self, ?_, hrank e.2 hk⟩
    simp only [hfound, hcell, Cell.of_value, hk, Option.bind_eq_bind, Option.bind_some]

/-- The frames on the way to the last node of a tree are all on its left. -/
theorem after_of_right (hfs : ∀ f ∈ fs, f.side = .right) : after fs = [] := by
  induction fs with
  | nil => rfl
  | cons f fs ih =>
    rw [List.forall_mem_cons] at hfs
    rw [after_cons, ih hfs.2, Frame.after, hfs.1]
    rfl

/-- The node at the end of the tree, or `LEAF`. -/
theorem Holds.endLoop (h : Holds t W E) (d : Side) :
    (E = [] ∧ t.endLoop d (t.next + 1) t.root = some LEAF) ∨
    ∃ fs x r, W = plug fs (make d x .leaf r) ∧ t.endLoop d (t.next + 1) t.root = some x.1 ∧ ∀ f ∈ fs, f.side = d := by
  cases W with
  | leaf =>
    have hempty : E = [] := List.map_eq_nil_iff.1 h.keys.symm
    obtain ⟨c, hc⟩ := h.stands.leaf
    refine Or.inl ⟨hempty, ?_⟩
    have hroot : t.root = LEAF := h.stands.root
    have hchild : (leafNode c : PicoTreeNode K).child d = LEAF := by cases d <;> rfl
    simp only [PicoTree.endLoop, hroot, hc, hchild, if_true, Option.bind_eq_bind, Option.bind_some]
  | node x l r =>
    have hwhole : Stands t (plug [] (.node x l r)) := h.stands
    have hturns : (Bin.node x l r).height < t.next + 1 := by
      have := (Bin.node x l r).height_le_size
      have := h.size_lt
      omega
    obtain ⟨fs, y, u, hloop, hplug, hfs⟩ := endLoop_spec d hwhole (fun he => by cases he) hturns
    rw [h.stands.root]
    exact Or.inr ⟨fs, y, u, hplug, hloop, hfs⟩

/-- **`pico_tree_firstNode`** of the root. -/
theorem Holds.firstNode (h : Holds t W E) : t.firstNode t.root = some ((E.map Prod.fst).headD LEAF) := by
  rcases h.endLoop .left with ⟨rfl, hloop⟩ | ⟨fs, x, r, rfl, hloop, hfs⟩
  · exact hloop
  · obtain ⟨E₁, e, E₂, rfl, ha, -, hE₁, -⟩ := Holds.split (l := .leaf) h
    rw [before_of_left hfs] at hE₁
    obtain rfl : E₁ = [] := List.map_eq_nil_iff.1 hE₁
    rw [PicoTree.firstNode, hloop, ← ha]
    rfl

/-- **`pico_tree_first`.** -/
theorem Holds.first (h : Holds t W E) : t.first = some (E.head?.map Prod.snd) := by
  unfold PicoTree.first PicoTree.firstNode
  rcases h.endLoop .left with ⟨rfl, hloop⟩ | ⟨fs, x, r, rfl, hloop, hfs⟩
  · obtain ⟨c, hc⟩ := h.stands.leaf
    simp only [hloop, hc, Option.bind_eq_bind, Option.bind_some]
    rfl
  · obtain ⟨E₁, e, E₂, rfl, -, hk, hE₁, -⟩ := Holds.split (l := .leaf) h
    rw [before_of_left hfs] at hE₁
    obtain rfl : E₁ = [] := List.map_eq_nil_iff.1 hE₁
    simp only [hloop, h.stands.cell.2, Cell.of_value, hk, Option.bind_eq_bind, Option.bind_some]
    rfl

/-- **`pico_tree_last`.** -/
theorem Holds.last (h : Holds t W E) : t.last = some (E.getLast?.map Prod.snd) := by
  unfold PicoTree.last PicoTree.lastNode
  rcases h.endLoop .right with ⟨rfl, hloop⟩ | ⟨fs, x, r, rfl, hloop, hfs⟩
  · obtain ⟨c, hc⟩ := h.stands.leaf
    simp only [hloop, hc, Option.bind_eq_bind, Option.bind_some]
    rfl
  · obtain ⟨E₁, e, E₂, rfl, -, hk, -, hE₂⟩ := Holds.split (r := .leaf) h
    rw [after_of_right hfs] at hE₂
    obtain rfl : E₂ = [] := List.map_eq_nil_iff.1 hE₂
    simp only [hloop, h.stands.cell.2, Cell.of_value, hk, Option.bind_eq_bind, Option.bind_some,
      List.getLast?_append, List.getLast?_singleton]
    rfl

/-! ## Changes -/

/-- An address that is given next is not in the tree. -/
theorem Holds.next_notMem (h : Holds t W E) : t.next ∉ addrs W := by
  intro hmem
  rw [h.addrs_eq] at hmem
  exact lt_irrefl _ (h.bound t.next ((h.live t.next).2 (Or.inr hmem)))

theorem Sorted.insert {E₁ E₂ : List (ℕ × K)} {e : ℕ × K} (hsorted : Sorted rank (E₁ ++ E₂))
    (hE₁ : ∀ e' ∈ E₁, rank e'.2 < rank e.2) (hE₂ : ∀ e' ∈ E₂, rank e.2 < rank e'.2) :
    Sorted rank (E₁ ++ e :: E₂) := by
  obtain ⟨h₁, h₂, h₁₂⟩ := List.pairwise_append.1 hsorted
  refine List.pairwise_append.2 ⟨h₁, List.pairwise_cons.2 ⟨hE₂, h₂⟩, fun a ha b hb => ?_⟩
  rcases List.mem_cons.1 hb with rfl | hb
  · exact hE₁ a ha
  · exact h₁₂ a ha b hb

/-- An empty tree is searched as well as any other. -/
theorem insert_eq (t : PicoTree K) (compare : K → K → ℤ) (zalloc : Bool) (key : K) :
    t.insert compare zalloc key = (t.findKey compare key).bind fun found =>
      match found with
      | some k => some (.already k, t)
      | none => if zalloc then (t.insertNew compare key).map fun t => (.done, t) else some (.noMemory, t) := by
  unfold PicoTree.insert
  by_cases hroot : t.root = LEAF
  · have hnone : t.findKey compare key = some none := by
      rw [PicoTree.findKey, PicoTree.findNode, findLoop, if_pos hroot]
      rfl
    rw [if_pos hroot, hnone]
    rfl
  · rw [if_neg hroot]
    rfl

/-- **`pico_tree_insert`.** -/
theorem Holds.insert (h : Holds t W E) (hsorted : Sorted rank E) (hU : Agrees compare rank U)
    (hE : ∀ e ∈ E, e.2 ∈ U) (hkey : key ∈ U) (zalloc : Bool) :
    (∃ e ∈ E, t.insert compare zalloc key = some (.already e.2, t) ∧ rank e.2 = rank key) ∨
    (∀ e ∈ E, rank e.2 ≠ rank key) ∧
      (zalloc = false ∧ t.insert compare zalloc key = some (.noMemory, t) ∨
        zalloc = true ∧ ∃ t' W' E₁ E₂, t.insert compare zalloc key = some (.done, t') ∧ E = E₁ ++ E₂ ∧
          Holds t' W' (E₁ ++ (t.next, key) :: E₂) ∧ Sorted rank (E₁ ++ (t.next, key) :: E₂) ∧
          (LeafBlack t → LeafBlack t') ∧ (LeafBlack t → Balanced IsRed W → Balanced IsRed W')) := by
  rw [insert_eq]
  rcases h.findKey hsorted hU hE hkey with ⟨hnone, hlacks⟩ | ⟨e, he, hfound, hrank⟩
  · right
    refine ⟨hlacks, ?_⟩
    rw [hnone, Option.bind_some]
    cases zalloc with
    | false => exact Or.inl ⟨rfl, rfl⟩
    | true =>
      right
      refine ⟨rfl, ?_⟩
      obtain ⟨t', W', gs, hnew, h', rfl, hkeys, hbelongs, hnext, hlive, hleaf, hbalanced⟩ :=
        insertNew_spec h.stands h.next_notMem h.size_lt (h.searchable hsorted hU hE hkey) (h.lacks_iff.2 hlacks)
      have hsplit : entries E = (before gs).map (fun x => (x.1, x.2.keyValue)) ++
          (after gs).map fun x => (x.1, x.2.keyValue) := by
        rw [← h.keys, keys_plug]
        simp [PicoTree.keys]
      obtain ⟨E₁, E₂, rfl, hE₁, hE₂⟩ := List.map_eq_append_iff.1 hsplit
      refine ⟨t', W', E₁, E₂, by rw [hnew]; rfl, rfl, ⟨h', ?_, fun a => ?_, fun a ha => ?_⟩,
        hsorted.insert (fun e he => ?_) fun e he => ?_, hleaf, hbalanced⟩
      · rw [hkeys, ← hE₁, ← hE₂]
        simp [entries]
      · rw [hlive, h.live]
        simp only [List.map_append, List.map_cons, List.mem_append, List.mem_cons]
        tauto
      · rw [hnext]
        rcases (hlive a).1 ha with ha | rfl
        · exact (h.bound a ha).trans (Nat.lt_succ_self _)
        · exact Nat.lt_succ_self _
      · have hmem : (e.1, some e.2) ∈ (before gs).map fun x => (x.1, x.2.keyValue) := by
          rw [← hE₁]
          exact List.mem_map_of_mem he
        obtain ⟨x, hx, heq⟩ := List.mem_map.1 hmem
        exact hbelongs.before x hx e.2 (Prod.mk.inj heq).2
      · have hmem : (e.1, some e.2) ∈ (after gs).map fun x => (x.1, x.2.keyValue) := by
          rw [← hE₂]
          exact List.mem_map_of_mem he
        obtain ⟨x, hx, heq⟩ := List.mem_map.1 hmem
        exact hbelongs.after x hx e.2 (Prod.mk.inj heq).2
  · left
    refine ⟨e, he, ?_, hrank⟩
    rw [hfound]
    rfl

/-- A node that is in no tree is freed. -/
theorem Holds.free {E₁ E₂ : List (ℕ × K)} {e : ℕ × K} (h : Holds t T (E₁ ++ e :: E₂)) (hW : Stands t' W)
    (hsame : Same t t') (hkeys : PicoTree.keys W = entries (E₁ ++ E₂)) :
    ∃ t'', t'.free e.1 = some t'' ∧ Holds t'' W (E₁ ++ E₂) ∧ t''.next = t.next := by
  have hmem : e.1 ∈ (E₁ ++ e :: E₂).map Prod.fst := List.mem_map_of_mem (List.mem_append_right E₁ List.mem_cons_self)
  have hlive : (t'.node e.1).isSome := by
    rw [hsame.live]
    exact (h.live e.1).2 (Or.inr hmem)
  obtain ⟨n, hn⟩ := Option.isSome_iff_exists.1 hlive
  have hne : e.1 ≠ LEAF := by
    rintro he
    rw [← h.addrs_eq, he] at hmem
    exact h.stands.leaf_notMem hmem
  have haddrs : addrs W = (E₁ ++ E₂).map Prod.fst := by
    rw [addrs_eq_keys, hkeys, entries, List.map_map]
    rfl
  have hnodup := h.stands.nodup
  rw [h.addrs_eq, List.map_append, List.map_cons, List.nodup_middle, List.nodup_cons, ← List.map_append] at hnodup
  have hnot : e.1 ∉ addrs W := by
    rw [haddrs]
    exact hnodup.1
  refine ⟨{ t' with node := update t'.node e.1 none }, by rw [PicoTree.free, hn]; rfl, ⟨⟨hW.root, hW.rep.elsewhere hnot _, hW.nodup, ?_⟩, hkeys, fun a => ?_,
    fun a ha => ?_⟩, hsame.next⟩
  · obtain ⟨c, hc⟩ := hW.leaf
    exact ⟨c, (update_of_ne hne.symm ..).trans hc⟩
  · by_cases ha : a = e.1
    · refine iff_of_false ?_ ?_
      · show ¬ (update t'.node e.1 none a).isSome
        rw [ha, update_self]
        exact Bool.false_ne_true
      · rw [ha]
        exact not_or_intro hne hnodup.1
    · have hother : update t'.node e.1 none a = t'.node a := update_of_ne ha ..
      show (update t'.node e.1 none a).isSome ↔ _
      rw [hother, hsame.live, h.live]
      simp only [List.map_append, List.map_cons, List.mem_append, List.mem_cons]
      tauto
  · show a < t'.next
    have hlive : (t'.node a).isSome := by
      by_cases hae : a = e.1
      · rw [hae, hn]
        rfl
      · have hother : update t'.node e.1 none a = t'.node a := update_of_ne hae ..
        rw [← hother]
        exact ha
    rw [hsame.next]
    rw [hsame.live] at hlive
    exact h.bound a hlive

/-- **`pico_tree_delete`.** -/
theorem Holds.delete (h : Holds t W E) (hsorted : Sorted rank E) (hU : Agrees compare rank U)
    (hE : ∀ e ∈ E, e.2 ∈ U) (hkey : key ∈ U) :
    (t.delete compare key = some (none, t) ∧ ∀ e ∈ E, rank e.2 ≠ rank key) ∨
    ∃ t' W' E₁ e E₂, t.delete compare key = some (some e.2, t') ∧ E = E₁ ++ e :: E₂ ∧ rank e.2 = rank key ∧
      Holds t' W' (E₁ ++ E₂) ∧ t'.next = t.next := by
  unfold PicoTree.delete
  rcases h.findNode hsorted hU hE hkey with ⟨hnone, hlacks⟩ | ⟨fs, x, l, r, hfound, rfl, hrank⟩
  · rw [hnone]
    exact Or.inl ⟨rfl, hlacks⟩
  · right
    obtain ⟨E₁, e, E₂, rfl, ha, hk, hE₁, hE₂⟩ := h.split
    have hcell := (Stands.cell (d := .left) h.stands).2
    have hsize := h.size_lt
    have hplace := length_le_size fs (.node x l r)
    have hr := r.height_le_size
    rw [Bin.size] at hplace
    obtain ⟨color, t₁, gs, T, hswitch, h₁, hsame₁, hwithout⟩ := delete_check_switch_spec h.stands (by omega)
    have hkeys₁ : PicoTree.keys (plug gs T) = entries (E₁ ++ E₂) := by
      rw [hwithout, entries, List.map_append]
      show _ = entries E₁ ++ entries E₂
      rw [hE₁, hE₂]
      simp only [List.append_assoc]
    -- whatever the colours are, the keys are as they should be
    have hfix : ∃ t₂ W₂, t₁.if_nodecolor_black_fix_collisions (ptr T) color = some t₂ ∧ Stands t₂ W₂ ∧
        PicoTree.keys W₂ = PicoTree.keys (plug gs T) ∧ Same t₁ t₂ := by
      cases color with
      | RED => exact ⟨t₁, _, rfl, h₁, rfl, .refl t₁⟩
      | BLACK =>
        have hlength : gs.length + 1 < t₁.next + 2 := by
          have hperm := (hwithout.perm x).length_eq
          rw [addrs, addrs, List.length_cons, List.length_map, List.length_map, length_inorder, length_inorder] at hperm
          have := length_le_size gs T
          rw [hsame₁.next]
          omega
        exact fixDeleteLoop_spec (t₁.next + 2) h₁ (Nat.succ_pos _) (Or.inl hlength)
    obtain ⟨t₂, W₂, hfix, h₂, hkeys₂, hsame₂⟩ := hfix
    obtain ⟨t₃, hfree, h₃, hnext⟩ := h.free h₂ (hsame₁.trans hsame₂) (hkeys₂.trans hkeys₁)
    refine ⟨t₃, W₂, E₁, e, E₂, ?_, rfl, hrank e.2 hk, h₃, hnext⟩
    rw [ha] at hfree
    simp only [hfound, hcell, hswitch, hfix, hfree, Cell.of_value, hk, Option.bind_eq_bind, Option.bind_some]

/-- `LEAF` is painted by another tree. -/
theorem Holds.elsewhere (h : Holds t W E) (color : Color) : ∃ t', t.setColor LEAF color = some t' ∧ Holds t' W E ∧
    (color = .BLACK → LeafBlack t → LeafBlack t') := by
  obtain ⟨fs, rfl⟩ := exists_leaf W
  obtain ⟨t', hset, h', hsame, hleaf⟩ := h.stands.setColor color
  refine ⟨t', hset, ⟨h', h.keys, fun a => ?_, fun a ha => ?_⟩, fun hcolor => hleaf fun _ => hcolor⟩
  · rw [hsame.live]
    exact h.live a
  · rw [hsame.next]
    rw [hsame.live] at ha
    exact h.bound a ha

/-! ## Sets -/

/-- The key that a call is about. -/
def Call.about : Call K → Option K
  | .insert _ key => some key
  | .delete key => some key
  | .findKey key => some key
  | _ => none

/-- **What a call does to a set of keys**, of which no two have the same rank. -/
inductive SetCall (rank : K → ℤ) (S : Set K) : Call K → Answer K → Set K → Prop
  | already {zalloc : Bool} {key k : K} : k ∈ S → rank k = rank key →
      SetCall rank S (.insert zalloc key) (.inserted (.already k)) S
  | inserted {key : K} : (∀ k ∈ S, rank k ≠ rank key) → SetCall rank S (.insert true key) (.inserted .done) (S ∪ {key})
  | noMemory {key : K} : (∀ k ∈ S, rank k ≠ rank key) → SetCall rank S (.insert false key) (.inserted .noMemory) S
  | deleted {key k : K} : k ∈ S → rank k = rank key → SetCall rank S (.delete key) (.key (some k)) (S \ {k})
  | notDeleted {key : K} : (∀ k ∈ S, rank k ≠ rank key) → SetCall rank S (.delete key) (.key none) S
  | found {key k : K} : k ∈ S → rank k = rank key → SetCall rank S (.findKey key) (.key (some k)) S
  | notFound {key : K} : (∀ k ∈ S, rank k ≠ rank key) → SetCall rank S (.findKey key) (.key none) S
  | first {k : K} : k ∈ S → (∀ k' ∈ S, rank k ≤ rank k') → SetCall rank S .first (.key (some k)) S
  | firstNone : S = ∅ → SetCall rank S .first (.key none) S
  | last {k : K} : k ∈ S → (∀ k' ∈ S, rank k' ≤ rank k) → SetCall rank S .last (.key (some k)) S
  | lastNone : S = ∅ → SetCall rank S .last (.key none) S
  | elsewhere {color : Color} : SetCall rank S (.elsewhere color) .nothing S

/-- Calls one after the other, on a set. -/
inductive SetRun (rank : K → ℤ) : Set K → List (Call K) → List (Answer K) → Set K → Prop
  | nil (S : Set K) : SetRun rank S [] [] S
  | cons {S S' S'' : Set K} {c : Call K} {cs : List (Call K)} {a : Answer K} {as : List (Answer K)} :
      SetCall rank S c a S' → SetRun rank S' cs as S'' → SetRun rank S (c :: cs) (a :: as) S''

/-- The set of the entries. -/
def contents (E : List (ℕ × K)) : Set K := {k | k ∈ E.map Prod.snd}

theorem contents_nil : contents ([] : List (ℕ × K)) = ∅ :=
  Set.eq_empty_of_forall_notMem fun _ hk => absurd hk List.not_mem_nil

theorem mem_contents {k : K} : k ∈ contents E ↔ ∃ e ∈ E, e.2 = k := List.mem_map

/-- **What a tree is in a run**: it holds entries in order, whose keys are among those of the calls. -/
structure Reached (rank : K → ℤ) (U : Set K) (t : PicoTree K) (W : Bin (TreeNode K)) (E : List (ℕ × K)) : Prop
    extends Holds t W E where
  sorted : Sorted rank E
  within : ∀ e ∈ E, e.2 ∈ U

/-- Around an entry. -/
theorem Sorted.around {E₁ E₂ : List (ℕ × K)} {e : ℕ × K} (hsorted : Sorted rank (E₁ ++ e :: E₂)) :
    (∀ e' ∈ E₁, rank e'.2 < rank e.2) ∧ (∀ e' ∈ E₂, rank e.2 < rank e'.2) ∧ Sorted rank (E₁ ++ E₂) := by
  obtain ⟨h₁, h₂, h₁₂⟩ := List.pairwise_append.1 hsorted
  obtain ⟨hE₂, h₂⟩ := List.pairwise_cons.1 h₂
  refine ⟨fun e' he' => h₁₂ e' he' e List.mem_cons_self, hE₂, List.pairwise_append.2 ⟨h₁, h₂, fun a ha b hb => ?_⟩⟩
  exact h₁₂ a ha b (List.mem_cons_of_mem _ hb)

/-- What is deleted is gone. -/
theorem Sorted.contents_erase {E₁ E₂ : List (ℕ × K)} {e : ℕ × K} (hsorted : Sorted rank (E₁ ++ e :: E₂)) :
    contents (E₁ ++ E₂) = contents (E₁ ++ e :: E₂) \ {e.2} := by
  obtain ⟨hE₁, hE₂, -⟩ := hsorted.around
  ext k
  rw [Set.mem_sdiff, Set.mem_singleton_iff, mem_contents, mem_contents]
  constructor
  · rintro ⟨e', he', rfl⟩
    rcases List.mem_append.1 he' with he' | he'
    · exact ⟨⟨e', List.mem_append_left _ he', rfl⟩, fun heq => (hE₁ e' he').ne (congrArg rank heq)⟩
    · exact ⟨⟨e', List.mem_append_right _ (List.mem_cons_of_mem _ he'), rfl⟩,
        fun heq => (hE₂ e' he').ne' (congrArg rank heq)⟩
  · rintro ⟨⟨e', he', rfl⟩, hne⟩
    rcases List.mem_append.1 he' with he' | he'
    · exact ⟨e', List.mem_append_left _ he', rfl⟩
    · rcases List.mem_cons.1 he' with rfl | he'
      · exact absurd rfl hne
      · exact ⟨e', List.mem_append_right _ he', rfl⟩

theorem contents_insert (E₁ E₂ : List (ℕ × K)) (e : ℕ × K) :
    contents (E₁ ++ e :: E₂) = contents (E₁ ++ E₂) ∪ {e.2} := by
  ext k
  rw [Set.mem_union, Set.mem_singleton_iff, contents, contents, Set.mem_ofPred_eq, Set.mem_ofPred_eq, List.map_append, List.map_append,
    List.map_cons, List.mem_append, List.mem_append, List.mem_cons]
  tauto

/-- Each entry has a key of its own. -/
theorem Sorted.ncard (hsorted : Sorted rank E) : (contents E).Finite ∧ (contents E).ncard = E.length := by
  classical
  have hnodup : (E.map Prod.snd).Nodup := by
    rw [List.Nodup, List.pairwise_map]
    exact hsorted.imp fun hlt heq => hlt.ne (congrArg rank heq)
  have hcontents : contents E = ((E.map Prod.snd).toFinset : Set K) := by
    ext k
    rw [Finset.mem_coe, List.mem_toFinset]
    rfl
  refine ⟨hcontents ▸ Finset.finite_toSet _, ?_⟩
  rw [hcontents, Set.ncard_coe_finset, List.toFinset_card_of_nodup hnodup, List.length_map]

/-- **Nothing is lost**: there is a node for each key, and `LEAF`. -/
theorem Holds.ncard_live (h : Holds t W E) : {a | (t.node a).isSome}.ncard = E.length + 1 := by
  have hlive : {a | (t.node a).isSome} = ((LEAF :: addrs W).toFinset : Set ℕ) := by
    ext a
    rw [Finset.mem_coe, List.mem_toFinset, List.mem_cons, h.addrs_eq]
    exact h.live a
  rw [hlive, Set.ncard_coe_finset,
    List.toFinset_card_of_nodup (List.nodup_cons.2 ⟨h.stands.leaf_notMem, h.stands.nodup⟩), List.length_cons, addrs,
    List.length_map, length_inorder, h.size_eq]

/-- The calls with which a tree only grows, while `LEAF` stays black. -/
def Call.Grows : Call K → Prop
  | .delete _ => False
  | .elsewhere color => color = .BLACK
  | _ => True

/-- It is balanced. -/
def Level (t : PicoTree K) (W : Bin (TreeNode K)) : Prop := LeafBlack t ∧ Balanced IsRed W

/-- **A call is that of a set.** -/
theorem call_spec (hU : Agrees compare rank U) (h : Reached rank U t W E) (c : Call K) (hc : ∀ key, c.about = some key → key ∈ U) :
    ∃ a t' W' E', t.call compare c = some (a, t') ∧ SetCall rank (contents E) c a (contents E') ∧
      Reached rank U t' W' E' ∧ (c.Grows → Level t W → Level t' W') := by
  obtain ⟨hholds, hsorted, hE⟩ := h
  cases c with
  | insert zalloc key =>
    rcases hholds.insert hsorted hU hE (hc key rfl) zalloc with ⟨e, he, hinsert, hrank⟩ |
      ⟨hlacks, ⟨rfl, hinsert⟩ | ⟨rfl, t', W', E₁, E₂, hinsert, rfl, h', hsorted', hleaf, hbalanced⟩⟩
    · exact ⟨_, t, W, E, by rw [call, hinsert]; rfl, .already (mem_contents.2 ⟨e, he, rfl⟩) hrank, ⟨hholds, hsorted, hE⟩,
        fun _ hlevel => hlevel⟩
    · refine ⟨_, t, W, E, by rw [call, hinsert]; rfl, .noMemory fun k hk => ?_, ⟨hholds, hsorted, hE⟩, fun _ hlevel => hlevel⟩
      obtain ⟨e, he, rfl⟩ := mem_contents.1 hk
      exact hlacks e he
    · refine ⟨_, t', W', _, by rw [call, hinsert]; rfl, ?_, ⟨h', hsorted', fun e he => ?_⟩,
        fun _ hlevel => ⟨hleaf hlevel.1, hbalanced hlevel.1 hlevel.2⟩⟩
      · rw [contents_insert]
        refine .inserted fun k hk => ?_
        obtain ⟨e, he, rfl⟩ := mem_contents.1 hk
        exact hlacks e he
      · rcases List.mem_append.1 he with he | he
        · exact hE e (List.mem_append_left _ he)
        · rcases List.mem_cons.1 he with rfl | he
          · exact hc key rfl
          · exact hE e (List.mem_append_right _ he)
  | delete key =>
    rcases hholds.delete hsorted hU hE (hc key rfl) with ⟨hdelete, hlacks⟩ |
      ⟨t', W', E₁, e, E₂, hdelete, rfl, hrank, h', -⟩
    · refine ⟨_, t, W, E, by rw [call, hdelete]; rfl, .notDeleted fun k hk => ?_, ⟨hholds, hsorted, hE⟩, fun _ hlevel => hlevel⟩
      obtain ⟨e, he, rfl⟩ := mem_contents.1 hk
      exact hlacks e he
    · refine ⟨_, t', W', _, by rw [call, hdelete]; rfl, ?_, ⟨h', hsorted.around.2.2, fun e' he' => hE e' ?_⟩,
        fun hgrows => hgrows.elim⟩
      · rw [hsorted.contents_erase]
        exact .deleted (mem_contents.2 ⟨e, List.mem_append_right _ List.mem_cons_self, rfl⟩) hrank
      · rcases List.mem_append.1 he' with he' | he'
        · exact List.mem_append_left _ he'
        · exact List.mem_append_right _ (List.mem_cons_of_mem _ he')
  | findKey key =>
    rcases hholds.findKey hsorted hU hE (hc key rfl) with ⟨hfind, hlacks⟩ | ⟨e, he, hfind, hrank⟩
    · refine ⟨_, t, W, E, by rw [call, hfind]; rfl, .notFound fun k hk => ?_, ⟨hholds, hsorted, hE⟩, fun _ hlevel => hlevel⟩
      obtain ⟨e, he, rfl⟩ := mem_contents.1 hk
      exact hlacks e he
    · exact ⟨_, t, W, E, by rw [call, hfind]; rfl, .found (mem_contents.2 ⟨e, he, rfl⟩) hrank, ⟨hholds, hsorted, hE⟩,
        fun _ hlevel => hlevel⟩
  | first =>
    refine ⟨_, t, W, E, by rw [call, hholds.first]; rfl, ?_, ⟨hholds, hsorted, hE⟩, fun _ hlevel => hlevel⟩
    cases E with
    | nil => exact .firstNone contents_nil
    | cons e E =>
      refine .first (mem_contents.2 ⟨e, List.mem_cons_self, rfl⟩) fun k hk => ?_
      obtain ⟨e', he', rfl⟩ := mem_contents.1 hk
      rcases List.mem_cons.1 he' with rfl | he'
      · exact le_rfl
      · exact (List.rel_of_pairwise_cons hsorted he').le
  | last =>
    refine ⟨_, t, W, E, by rw [call, hholds.last]; rfl, ?_, ⟨hholds, hsorted, hE⟩, fun _ hlevel => hlevel⟩
    rcases List.eq_nil_or_concat E with rfl | ⟨E, e, rfl⟩
    · exact .lastNone contents_nil
    · rw [List.concat_eq_append] at hsorted ⊢
      rw [List.getLast?_append, List.getLast?_singleton]
      refine .last (mem_contents.2 ⟨e, List.mem_append_right _ (List.mem_singleton_self e), rfl⟩) fun k hk => ?_
      obtain ⟨e', he', rfl⟩ := mem_contents.1 hk
      rcases List.mem_append.1 he' with he' | he'
      · exact (hsorted.around.1 e' he').le
      · rw [List.mem_singleton.1 he']
  | elsewhere color =>
    obtain ⟨t', hset, h', hleaf⟩ := hholds.elsewhere color
    exact ⟨_, t', W, E, by rw [call, hset]; rfl, .elsewhere, ⟨h', hsorted, hE⟩,
      fun hgrows hlevel => ⟨hleaf hgrows hlevel.1, hlevel.2⟩⟩

/-- **So is a run.** -/
theorem run_spec (hU : Agrees compare rank U) (cs : List (Call K)) (hcs : ∀ c ∈ cs, ∀ key, c.about = some key → key ∈ U)
    (h : Reached rank U t W E) : ∃ as t' W' E', run compare t cs = some (as, t') ∧
      SetRun rank (contents E) cs as (contents E') ∧ Reached rank U t' W' E' ∧
      ((∀ c ∈ cs, c.Grows) → Level t W → Level t' W') := by
  induction cs generalizing t W E with
  | nil => exact ⟨[], t, W, E, rfl, .nil _, h, fun _ hlevel => hlevel⟩
  | cons c cs ih =>
    rw [List.forall_mem_cons] at hcs
    obtain ⟨a, t₁, W₁, E₁, hcall, hset, h₁, hlevel₁⟩ := call_spec hU h c hcs.1
    obtain ⟨as, t₂, W₂, E₂, hrun, hsets, h₂, hlevel₂⟩ := ih hcs.2 h₁
    refine ⟨a :: as, t₂, W₂, E₂, ?_, .cons hset hsets, h₂, fun hgrows hlevel => ?_⟩
    · rw [run, hcall, Option.bind_eq_bind, Option.bind_some]
      dsimp only
      rw [hrun]
      rfl
    · rw [List.forall_mem_cons] at hgrows
      exact hlevel₂ hgrows.2 (hlevel₁ hgrows.1 hlevel)

/-- Only `LEAF` is in memory at first. -/
theorem empty_node (color : Color) (a : ℕ) :
    (PicoTree.empty color : PicoTree K).node a = if a = LEAF then some (leafNode color) else none :=
  update_apply (fun _ => none) LEAF (some (leafNode color)) a

/-- A tree that was just declared. -/
theorem reached_empty (rank : K → ℤ) (U : Set K) (color : Color) : Reached rank U (PicoTree.empty color) .leaf [] where
  stands := ⟨rfl, trivial, List.nodup_nil, color, (empty_node color LEAF).trans (if_pos rfl)⟩
  keys := rfl
  live a := by
    rw [empty_node]
    by_cases ha : a = LEAF
    · rw [if_pos ha]
      exact iff_of_true rfl (Or.inl ha)
    · rw [if_neg ha]
      exact iff_of_false Bool.false_ne_true (not_or_intro ha List.not_mem_nil)
  bound a ha := by
    rw [empty_node] at ha
    by_cases hleaf : a = LEAF
    · rw [hleaf]
      exact Nat.zero_lt_one
    · rw [if_neg hleaf] at ha
      cases ha
  sorted := List.Pairwise.nil
  within e he := absurd he List.not_mem_nil

/-- **The trees are sets of keys**: whichever calls are made, whichever allocations fail and whatever
other trees do to `LEAF`, all loops end, no pointer is followed that is not valid, the answers are those
of a set, and there is a node for each key. -/
theorem treeRun_sets (hU : Agrees compare rank U) (cs : List (Call K))
    (hcs : ∀ c ∈ cs, ∀ key, c.about = some key → key ∈ U) (color : Color) :
    ∃ answers t S, run compare (PicoTree.empty color) cs = some (answers, t) ∧ SetRun rank ∅ cs answers S ∧ S.Finite ∧
      {a | (t.node a).isSome}.ncard = S.ncard + 1 := by
  obtain ⟨answers, t, W, E, hrun, hset, h, -⟩ := run_spec hU cs hcs (reached_empty rank U color)
  obtain ⟨hfinite, hncard⟩ := h.sorted.ncard
  rw [contents_nil] at hset
  refine ⟨answers, t, contents E, hrun, hset, hfinite, ?_⟩
  rw [h.ncard_live, hncard]

theorem agrees_sub (U : Set ℤ) : Agrees (fun a b => a - b) id U :=
  fun _ _ _ _ => ⟨sub_neg, sub_eq_zero⟩

theorem treeRun_sets_integers : ∃ answers t S,
    run (fun a b : ℤ => a - b) (PicoTree.empty .BLACK) [.insert true 3, .insert false 5, .delete 3] = some (answers, t) ∧
      SetRun id ∅ [.insert true 3, .insert false 5, .delete 3] answers S ∧ S.Finite ∧
      {a | (t.node a).isSome}.ncard = S.ncard + 1 :=
  treeRun_sets (agrees_sub Set.univ) _ (fun _ _ _ _ => trivial) .BLACK

/-- **A search is short** as long as nothing was deleted: the tree is balanced. -/
theorem treeRun_short (hU : Agrees compare rank U) (cs : List (Call K))
    (hcs : ∀ c ∈ cs, ∀ key, c.about = some key → key ∈ U) (hgrows : ∀ c ∈ cs, c.Grows) :
    ∃ answers t S, run compare (PicoTree.empty .BLACK) cs = some (answers, t) ∧ SetRun rank ∅ cs answers S ∧
      ∀ key ∈ U, ∃ found, t.findLoop compare key (2 * Nat.log2 (S.ncard + 1) + 1) t.root = some found ∧
        (found = none ↔ ∀ k ∈ S, rank k ≠ rank key) := by
  obtain ⟨answers, t, W, E, hrun, hset, h, hlevel⟩ := run_spec hU cs hcs (reached_empty rank U .BLACK)
  obtain ⟨-, hbalanced⟩ := hlevel hgrows ⟨(empty_node .BLACK LEAF).trans (if_pos rfl), trivial, not_false, 0, .leaf⟩
  rw [contents_nil] at hset
  refine ⟨answers, t, contents E, hrun, hset, fun key hkey => ?_⟩
  have hwhole : Stands t (plug [] W) := h.stands
  have hturns : W.height < 2 * Nat.log2 ((contents E).ncard + 1) + 1 := by
    have := hbalanced.height_le
    rw [h.size_eq] at this
    rw [h.sorted.ncard.2]
    omega
  rw [h.stands.root]
  rcases findLoop_spec hwhole (h.searchable h.sorted hU h.within hkey) hturns with ⟨hnone, hlacks⟩ |
    ⟨gs, x, l, r, k, hfound, hplug, hk, hrank⟩
  · refine ⟨none, hnone, iff_of_true rfl fun k hk => ?_⟩
    obtain ⟨e, he, rfl⟩ := mem_contents.1 hk
    exact h.lacks_iff.1 hlacks e he
  · refine ⟨some x.1, hfound, iff_of_false (fun he => by cases he) fun hlacks => ?_⟩
    have hsplit : Holds t (plug gs (.node x l r)) E := by
      rw [hplug]
      exact h.toHolds
    obtain ⟨E₁, e, E₂, rfl, -, hke, -⟩ := hsplit.split
    refine hlacks e.2 (mem_contents.2 ⟨e, List.mem_append_right _ List.mem_cons_self, rfl⟩) ?_
    rw [← Option.some.inj (hk.symm.trans hke)]
    exact hrank

theorem treeRun_short_integers : ∃ answers t S,
    run (fun a b : ℤ => a - b) (PicoTree.empty .BLACK) [.insert true 1, .insert true 2, .insert true 3] = some (answers, t) ∧
      SetRun id ∅ [.insert true 1, .insert true 2, .insert true 3] answers S ∧
      ∀ key ∈ Set.univ, ∃ found, t.findLoop (fun a b : ℤ => a - b) key (2 * Nat.log2 (S.ncard + 1) + 1) t.root = some found ∧
        (found = none ↔ ∀ k ∈ S, id k ≠ id key) := by
  refine treeRun_short (agrees_sub Set.univ) _ (fun _ _ _ _ => trivial) fun c hc => ?_
  simp only [List.mem_cons, List.not_mem_nil, or_false] at hc
  rcases hc with rfl | rfl | rfl <;> trivial

end PicoTree

end Vdetelweb
