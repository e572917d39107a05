import Vdetelweb.Lib.Walk
import Vdetelweb.Spec.Tree

/-!
# What the command tree contains

The dictionaries are a graph: the edges are the entries that are dictionaries, and the
stops are those with the key `__index`, where `create_commands_urls` goes no deeper. One
node of a path adds one edge or leads one to a record (`enter_cases`). Two things follow.

* A path may be blocked on its way: once there is a stop before its end, there always will
  be (`makeCommandsTree_blocked`).
* If no path gets in the way of another, the graph is the tree of the paths
  (`makeCommandsTree_tree`).
-/

namespace Vdetelweb

open Walk

/-- The nodes of the record's path. -/
def Record.nodes (i : Record) : List Bytes := i.cmd.splitOn '/'

/-- The last of them. -/
def Record.last (i : Record) : Bytes := i.nodes.getLastD []

theorem Record.nodes_ne_nil (i : Record) : i.nodes ≠ [] := List.splitOn_ne_nil _ _

theorem Record.nodes_eq (i : Record) : i.nodes = i.nodes.dropLast ++ [i.last] := by
  rw [Record.last, List.getLastD_eq_getLast?, List.getLast?_eq_some_getLast i.nodes_ne_nil]
  exact (List.dropLast_append_getLast i.nodes_ne_nil).symm

theorem Record.last_mem (i : Record) : i.last ∈ i.nodes := by
  rw [Record.nodes_eq i]
  simp

/-- The path is its nodes, with a slash between any two. -/
theorem Record.cmd_eq (i : Record) : ['/'].intercalate i.nodes = i.cmd :=
  List.intercalate_splitOn ..

theorem not_mem_of_mem_splitOn (c : Char) (l : List Char) : ∀ k ∈ l.splitOn c, c ∉ k := by
  induction l with
  | nil => simp
  | cons x xs ih =>
    rw [List.splitOn_cons_eq_if_modifyHead]
    obtain ⟨y, ys, hxs⟩ := List.exists_cons_of_ne_nil (List.splitOn_ne_nil c xs)
    rw [hxs] at ih ⊢
    obtain ⟨hy, hys⟩ := List.forall_mem_cons.1 ih
    by_cases hx : x = c
    · simpa [hx, hy] using hys
    · simpa [hx, Ne.symm hx, hy] using hys

theorem Record.slash_not_mem (i : Record) : ∀ k ∈ i.nodes, '/' ∉ k :=
  not_mem_of_mem_splitOn '/' i.cmd

/-! ## The heap as a graph -/

namespace Heap

variable {h h' : Heap}

/-- Where the entry leads, if it is a dictionary. -/
def edge (h : Heap) (r : Ref) (k : Bytes) : Option Ref :=
  match h.get r k with
  | some (.dict v) => some v
  | _ => none

theorem edge_eq_some {r v : Ref} {k : Bytes} : h.edge r k = some v ↔ h.get r k = some (.dict v) := by
  unfold edge
  split
  · rename_i w hw
    simp [hw]
  · rename_i hno
    exact ⟨nofun, fun hv => absurd hv (hno v)⟩

/-- The dictionaries as a graph. -/
def graph (h : Heap) : Walk.Graph Ref Bytes := ⟨h.edge, h.isLeaf⟩

theorem isLeaf_iff {r : Ref} : h.isLeaf r ↔ h.get r "__index".toList ≠ none := by
  rw [isLeaf, get, Ne, AList.lookup_eq_none, not_not]

theorem get_set (r : Ref) (k : Bytes) (v : Val) (r' : Ref) (k' : Bytes) :
    (h.set r k v).get r' k' = if r' = r ∧ k' = k then some v else h.get r' k' := by
  unfold get set
  dsimp only
  by_cases hr : r' = r
  · subst hr
    rw [Function.update_self]
    by_cases hk : k' = k
    · subst hk
      rw [AList.lookup_insert, if_pos ⟨rfl, rfl⟩]
    · rw [AList.lookup_insert_ne hk, if_neg fun h => hk h.2]
  · rw [Function.update_of_ne hr, if_neg fun h => hr h.1]

theorem set_dict (r : Ref) (k : Bytes) (v : Val) {r' : Ref} (hr : r' ≠ r) :
    (h.set r k v).dict r' = h.dict r' := Function.update_of_ne hr _ _

theorem alloc_dict (hf : h.dict h.next = ∅) : h.alloc.dict = h.dict := by
  rw [alloc, ← hf]
  exact Function.update_eq_self _ _

/-- Nothing is in a dictionary that does not exist, entries are dictionaries that do, and
keys are nodes. -/
structure Ok (h : Heap) : Prop where
  fresh : ∀ r, h.next ≤ r → h.dict r = ∅
  target : ∀ r k v, h.get r k = some (.dict v) → v < h.next
  slash : ∀ r k, h.get r k ≠ none → '/' ∉ k

end Heap

/-! ## One node of a path -/

/-- At one key of one dictionary the value is now `v`. -/
structure Entered (h h' : Heap) (r : Ref) (node : Bytes) (v : Val) : Prop where
  here : h'.get r node = some v
  elsewhere : ∀ r' k', ¬ (r' = r ∧ k' = node) → h'.get r' k' = h.get r' k'
  dict : ∀ r', r' ≠ r → h'.dict r' = h.dict r'
  next : h.next ≤ h'.next

/-- There is a dictionary, if there was nothing yet. -/
def Heap.ensure (h : Heap) (r : Ref) (node : Bytes) : Heap :=
  if h.get r node = none then h.alloc.set r node (.dict h.next) else h

theorem enter_apply (i : Ref) (last node : Bytes) (r : Ref) (h : Heap) :
    enter i last node r h = Act.ofOption
      ((if node = last then (h.ensure r node).set r node (.dict i) else h.ensure r node).get r node)
      .keyError 55 (if node = last then (h.ensure r node).set r node (.dict i) else h.ensure r node) := by
  unfold enter Heap.ensure
  by_cases hl : node = last
  · subst hl
    by_cases hn : h.get r node = none <;> simp [Act.bind_apply, hn]
  · by_cases hn : h.get r node = none <;> simp [Act.bind_apply, hn, hl]

theorem ensure_cases {h : Heap} (hf : h.dict h.next = ∅) (r : Ref) (node : Bytes) :
    (∃ v, h.get r node = some v ∧ h.ensure r node = h) ∨
      (h.get r node = none ∧ Entered h (h.ensure r node) r node (.dict h.next) ∧
        h.next < (h.ensure r node).next) := by
  unfold Heap.ensure
  by_cases hn : h.get r node = none
  · rw [if_pos hn]
    refine Or.inr ⟨hn, ⟨?_, fun r' k' hne => ?_, fun r' hr' => ?_, Nat.le_succ _⟩, Nat.lt_succ_self _⟩
    · rw [Heap.get_set, if_pos ⟨rfl, rfl⟩]
    · rw [Heap.get_set, if_neg hne, Heap.get, Heap.alloc_dict hf, Heap.get]
    · rw [Heap.set_dict _ _ _ hr', Heap.alloc_dict hf]
  · rw [if_neg hn]
    obtain ⟨v, hv⟩ := Option.ne_none_iff_exists'.1 hn
    exact Or.inl ⟨v, hv, rfl⟩

theorem Entered.refl {h : Heap} {r : Ref} {node : Bytes} {v : Val} (hv : h.get r node = some v) :
    Entered h h r node v :=
  ⟨hv, fun _ _ _ => rfl, fun _ _ => rfl, le_rfl⟩

/-- Another value at the same key. -/
theorem Entered.set {h h' : Heap} {r : Ref} {node : Bytes} {v : Val} (he : Entered h h' r node v)
    (w : Val) : Entered h (h'.set r node w) r node w where
  here := by rw [Heap.get_set, if_pos ⟨rfl, rfl⟩]
  elsewhere r' k' hne := by rw [Heap.get_set, if_neg hne, he.elsewhere r' k' hne]
  dict r' hr' := by rw [Heap.set_dict _ _ _ hr', he.dict r' hr']
  next := he.next

/-- **What the loop does at a node**: at the last one, or one like it, the record is put
there; elsewhere a dictionary, if there is nothing yet. -/
theorem enter_cases {h : Heap} (hf : h.dict h.next = ∅) (i : Ref) (last node : Bytes) (r : Ref) :
    ∃ v h', enter i last node r h = (.ret v, h') ∧ Entered h h' r node v ∧
      ((node = last ∧ v = .dict i) ∨ (node ≠ last ∧ h.get r node = some v ∧ h' = h) ∨
        (node ≠ last ∧ h.get r node = none ∧ v = .dict h.next ∧ h.next < h'.next)) := by
  rw [enter_apply]
  by_cases hlast : node = last
  · have he : ∃ v, Entered h (h.ensure r node) r node v := by
      rcases ensure_cases hf r node with ⟨v, hv, heq⟩ | ⟨-, he, -⟩
      · exact ⟨v, heq.symm ▸ .refl hv⟩
      · exact ⟨_, he⟩
    obtain ⟨w, he⟩ := he
    have he := he.set (.dict i)
    rw [if_pos hlast, Act.ofOption_apply, he.here]
    exact ⟨_, _, rfl, he, Or.inl ⟨hlast, rfl⟩⟩
  · rw [if_neg hlast, Act.ofOption_apply]
    rcases ensure_cases hf r node with ⟨v, hv, heq⟩ | ⟨hnone, he, hlt⟩
    · rw [heq, hv]
      exact ⟨v, h, rfl, .refl hv, Or.inr (Or.inl ⟨hlast, rfl, rfl⟩)⟩
    · rw [he.here]
      exact ⟨_, _, rfl, he, Or.inr (Or.inr ⟨hlast, hnone, rfl, hlt⟩)⟩

/-! ## What holds of any paths -/

section

variable {h h' : Heap} {r i : Ref} {node : Bytes} {v : Val}

/-- **One node**: the heap stays well formed. -/
theorem Entered.ok (he : Entered h h' r node v) (h₀ : h.Ok) (hr : r < h.next) (hnode : '/' ∉ node)
    (hv : ∀ c, v = .dict c → c < h'.next) : h'.Ok where
  fresh r' hr' := by
    have hne : r' ≠ r := (hr.trans_le (he.next.trans hr')).ne'
    rw [he.dict r' hne]
    exact h₀.fresh r' (he.next.trans hr')
  target r' k' c hc := by
    by_cases hk : r' = r ∧ k' = node
    · obtain ⟨rfl, rfl⟩ := hk
      exact hv c (Option.some.inj (he.here.symm.trans hc))
    · rw [he.elsewhere r' k' hk] at hc
      exact (h₀.target r' k' c hc).trans_le he.next
  slash r' k' hk' := by
    by_cases hk : r' = r ∧ k' = node
    · exact hk.2 ▸ hnode
    · rw [he.elsewhere r' k' hk] at hk'
      exact h₀.slash r' k' hk'

theorem Entered.isLeaf (he : Entered h h' r node v) {r' : Ref} (hl : h.isLeaf r') : h'.isLeaf r' := by
  rw [Heap.isLeaf_iff] at hl ⊢
  by_cases hk : r' = r ∧ "__index".toList = node
  · obtain ⟨rfl, rfl⟩ := hk
    rw [he.here]
    exact nofun
  · rwa [he.elsewhere r' _ hk]

/-- **One node**: an edge is added, or led to a record. -/
theorem Entered.grows (he : Entered h h' r node v)
    (hv : h.get r node = none ∨ h.get r node = some v ∨ ∃ c, v = .dict c ∧ h.isLeaf c) :
    Grows h.graph h'.graph where
  edge r' k' c hc := by
    have hc := Heap.edge_eq_some.1 hc
    by_cases hk : r' = r ∧ k' = node
    · obtain ⟨rfl, rfl⟩ := hk
      rcases hv with hnone | hsame | ⟨w, rfl, hw⟩
      · rw [hnone] at hc; cases hc
      · rw [hsame] at hc
        exact ⟨c, Heap.edge_eq_some.2 (he.here.trans hc), Or.inl rfl⟩
      · exact ⟨w, Heap.edge_eq_some.2 he.here, Or.inr (he.isLeaf hw)⟩
    · rw [← he.elsewhere r' k' hk] at hc
      exact ⟨c, Heap.edge_eq_some.2 hc, Or.inl rfl⟩
  stop _ hr' := he.isLeaf hr'

end

/-- What becomes of a heap while one path is entered: `i` is its record, `v` the level that
it is entered from. -/
structure Descended (i : Ref) (v : Val) (h h' : Heap) : Prop where
  ok : h'.Ok
  grows : Grows h.graph h'.graph
  next : h.next ≤ h'.next
  /-- A dictionary that nothing leads to is left alone. -/
  frame : ∀ j, j < h.next → j ≠ i → v ≠ .dict j → (∀ r k, h.get r k ≠ some (.dict j)) →
    h'.dict j = h.dict j ∧ ∀ r k, h'.get r k ≠ some (.dict j)

theorem Descended.refl (i : Ref) (v : Val) {h : Heap} (h₀ : h.Ok) : Descended i v h h :=
  ⟨h₀, .refl _, le_rfl, fun _ _ _ _ hj => ⟨rfl, hj⟩⟩

/-- **One node, for any path**: what the loop does at a node, and that the next level is
well formed. -/
theorem enter_descended {h : Heap} (h₀ : h.Ok) {i r : Ref} (hi : h.isLeaf i) (hin : i < h.next)
    (hr : r < h.next) (last : Bytes) {node : Bytes} (hnode : '/' ∉ node) :
    ∃ v h', enter i last node r h = (.ret v, h') ∧ h'.get r node = some v ∧
      (node = last → v = .dict i) ∧ Descended i (.dict r) h h' ∧
      ∀ j, j < h.next → j ≠ i → (∀ r k, h.get r k ≠ some (.dict j)) → v ≠ .dict j := by
  obtain ⟨v, h', hrun, he, hcase⟩ := enter_cases (h₀.fresh _ le_rfl) i last node r
  -- the next level is the record, a dictionary that was there, or the new one
  have hlt : ∀ c, v = .dict c → c < h'.next := by
    rintro c rfl
    rcases hcase with ⟨-, hv⟩ | ⟨-, hv, rfl⟩ | ⟨-, -, hv, hlt⟩
    · cases hv; exact hin.trans_le he.next
    · exact h₀.target r node c hv
    · cases hv; exact hlt
  have hold : ∀ j, j < h.next → j ≠ i → (∀ r k, h.get r k ≠ some (.dict j)) → v ≠ .dict j := by
    rintro j hj hji hno rfl
    rcases hcase with ⟨-, hv⟩ | ⟨-, hv, -⟩ | ⟨-, -, hv, -⟩
    · cases hv; exact hji rfl
    · exact hno r node hv
    · cases hv; exact hj.ne rfl
  refine ⟨v, h', hrun, he.here, ?_, ⟨he.ok h₀ hr hnode hlt, he.grows ?_, he.next, ?_⟩, hold⟩
  · intro hlast
    rcases hcase with ⟨-, hv⟩ | ⟨hne, -⟩ | ⟨hne, -⟩
    · exact hv
    · exact absurd hlast hne
    · exact absurd hlast hne
  · rcases hcase with ⟨-, rfl⟩ | ⟨-, hv, -⟩ | ⟨-, hnone, -⟩
    · exact Or.inr (Or.inr ⟨i, rfl, hi⟩)
    · exact Or.inr (Or.inl hv)
    · exact Or.inl hnone
  · intro j hj hji hjr hno
    refine ⟨he.dict j fun h => hjr (h ▸ rfl), fun r' k' => ?_⟩
    by_cases hk : r' = r ∧ k' = node
    · obtain ⟨rfl, rfl⟩ := hk
      rw [he.here]
      exact fun h => hold j hj hji hno (Option.some.inj h)
    · rw [he.elsewhere r' k' hk]
      exact hno r' k'

theorem descend_cons {i r : Ref} {last node : Bytes} {w : Val} {h h₁ : Heap}
    (henter : enter i last node r h = (.ret w, h₁)) (nodes : List Bytes) :
    descend i last (node :: nodes) (.dict r) h = descend i last nodes w h₁ := by
  rw [descend, Act.bind_apply, henter]

/-- **A path, for any path.** -/
theorem descend_descended {i : Ref} (last : Bytes) : ∀ (nodes : List Bytes) (v : Val) {h : Heap},
    h.Ok → h.isLeaf i → i < h.next → (∀ r, v = .dict r → r < h.next) → (∀ k ∈ nodes, '/' ∉ k) →
    Descended i v h (descend i last nodes v h).2 := by
  intro nodes
  induction nodes with
  | nil => intro v h h₀ _ _ _ _; exact .refl i v h₀
  | cons node nodes ih =>
    intro v h h₀ hi hin hv hnodes
    cases v with
    | int _ => exact .refl i _ h₀
    | str _ => exact .refl i _ h₀
    | list _ => exact .refl i _ h₀
    | dict r =>
      obtain ⟨w, h₁, hrun, hget, -, hd, hw⟩ :=
        enter_descended h₀ hi hin (hv r rfl) last (hnodes node List.mem_cons_self)
      have hd' := ih w hd.ok (hd.grows.stop i hi) (hin.trans_le hd.next)
        (fun r' hr' => hd.ok.target r node r' (hr' ▸ hget)) fun k hk => hnodes k (List.mem_cons_of_mem _ hk)
      rw [descend_cons hrun]
      refine ⟨hd'.ok, hd.grows.trans hd'.grows, hd.next.trans hd'.next, fun j hj hji hjr hno => ?_⟩
      obtain ⟨hdict, hno₁⟩ := hd.frame j hj hji hjr hno
      obtain ⟨hdict', hno'⟩ := hd'.frame j (hj.trans_le hd.next) hji (hw j hj hji hno) hno₁
      exact ⟨hdict'.trans hdict, hno'⟩

/-- What is not a dictionary cannot be entered. -/
theorem descend_dict {i : Ref} {last node : Bytes} {nodes : List Bytes} {v : Val} {h h' : Heap}
    (hrun : descend i last (node :: nodes) v h = (.ret (), h')) : ∃ r, v = .dict r := by
  cases v with
  | int _ => cases hrun
  | str _ => cases hrun
  | list _ => cases hrun
  | dict r => exact ⟨r, rfl⟩

/-- **What a path blocks**: its nodes up to one like the last, and those before one named
`__index`. -/
theorem descend_blocked {i : Ref} {last : Bytes} {rest : List Bytes} : ∀ (q : List Bytes) {r : Ref}
    {h h' : Heap}, q ≠ [] → h.Ok → h.isLeaf i → i < h.next → r < h.next → (∀ k ∈ q ++ rest, '/' ∉ k) →
    descend i last (q ++ rest) (.dict r) h = (.ret (), h') →
    last ∈ q ∨ rest.head? = some "__index".toList → Blocked h'.graph r q := by
  intro q
  induction q with
  | nil => intro r h h' hq; exact absurd rfl hq
  | cons node q ih =>
    intro r h h' _ h₀ hi hin hr hnodes hrun hlast
    obtain ⟨hnode, hnodes'⟩ := List.forall_mem_cons.1 hnodes
    obtain ⟨w, h₁, henter, hget, hw, hd, -⟩ := enter_descended h₀ hi hin hr last hnode
    rw [List.cons_append, descend_cons henter] at hrun
    have htarget : ∀ r', w = .dict r' → r' < h₁.next := fun r' hr' =>
      hd.ok.target r node r' (hr' ▸ hget)
    have hi₁ := hd.grows.stop i hi
    have hin₁ := hin.trans_le hd.next
    have hd' : Descended i w h₁ h' := by
      have := descend_descended last (q ++ rest) w hd.ok hi₁ hin₁ htarget hnodes'
      rwa [hrun] at this
    obtain ⟨c, rfl, hc⟩ : ∃ c, w = .dict c ∧ (h'.isLeaf c ∨ Blocked h'.graph c q) := by
      by_cases hnl : node = last
      · -- the record itself lies here
        exact ⟨i, hw hnl, Or.inl (hd'.grows.stop i hi₁)⟩
      cases q with
      | nil =>
        -- the next node is named `__index`, and makes a stop of this one
        have hindex := hlast.resolve_left (by simpa using Ne.symm hnl)
        obtain ⟨rest, rfl⟩ : ∃ rest', rest = "__index".toList :: rest' := by
          cases rest with
          | nil => cases hindex
          | cons k rest => exact ⟨rest, by rw [Option.some.inj hindex]⟩
        obtain ⟨c, rfl⟩ := descend_dict hrun
        refine ⟨c, rfl, Or.inl ?_⟩
        obtain ⟨w, h₂, henter₂, hget₂, -, hd₂, -⟩ := enter_descended hd.ok hi₁ hin₁ (htarget c rfl) last
          (hnodes' _ List.mem_cons_self)
        rw [List.nil_append, descend_cons henter₂] at hrun
        have hd₃ := descend_descended last rest w hd₂.ok (hd₂.grows.stop i hi₁)
          (hin₁.trans_le hd₂.next) (fun r' hr' => hd₂.ok.target c _ r' (hr' ▸ hget₂))
          fun k hk => hnodes' k (List.mem_cons_of_mem _ hk)
        rw [hrun] at hd₃
        refine hd₃.grows.stop c (Heap.isLeaf_iff.2 ?_)
        rw [hget₂]
        exact nofun
      | cons k q =>
        obtain ⟨c, rfl⟩ := descend_dict hrun
        refine ⟨c, rfl, Or.inr (ih (by simp) hd.ok hi₁ hin₁ (htarget c rfl) hnodes' hrun ?_)⟩
        exact hlast.imp_left fun hmem => (List.mem_cons.1 hmem).resolve_left (Ne.symm hnl)
    exact hd'.grows.blocked_cons (Heap.edge_eq_some.2 hget) hc

/-! ## All paths -/

variable {cmds : List Record}

theorem Record.lookup_cmd (i : Record) : i.dict.lookup "cmd".toList = some (.str i.cmd) := by
  unfold Record.dict
  rw [AList.lookup_insert_ne (by decide), AList.lookup_insert]

theorem Record.lookup_args (i : Record) : i.dict.lookup "args".toList = some (.list i.args) := by
  unfold Record.dict
  rw [AList.lookup_insert_ne (by decide), AList.lookup_insert_ne (by decide), AList.lookup_insert]

theorem splitCmd_apply {h : Heap} {i : Record} {r : Ref} (hr : h.dict r = i.dict) :
    splitCmd r h = (.ret i.nodes, h) := by
  have hcmd : h.get r "cmd".toList = some (.str i.cmd) := by rw [Heap.get, hr, i.lookup_cmd]
  rw [splitCmd, Act.bind_apply, Act.get_apply]
  simp only [hcmd]
  rfl

theorem Record.isLeaf {h : Heap} {i : Record} {r : Ref} (hr : h.dict r = i.dict) : h.isLeaf r := by
  rw [Heap.isLeaf, hr]
  exact AList.mem_insert _ |>.2 (Or.inl rfl)

/-- The record has not been put into the tree. -/
structure Pending (cmds : List Record) (h : Heap) (i : Ref) : Prop where
  record : ∃ hi : i < cmds.length, h.dict i = cmds[i].dict
  unreached : ∀ r k, h.get r k ≠ some (.dict i)

/-- A path is blocked if it meets its last node, or one named `__index`, on its way. -/
def Record.Blocks (i : Record) (q : List Bytes) : Prop :=
  q ≠ [] ∧ ∃ rest, i.nodes = q ++ rest ∧ (i.last ∈ q ∨ rest.head? = some "__index".toList)

/-- **The paths that are blocked in the end.** -/
theorem makeCommandsTree_blocked : ∀ (is : List Ref) {h h' : Heap}, h.Ok → cmds.length < h.next →
    is.Nodup → (∀ i ∈ is, Pending cmds h i) →
    makeCommandsTree cmds.length is h = (.ret (), h') → h'.Ok ∧ Grows h.graph h'.graph ∧
      ∀ i ∈ is, ∀ hi : i < cmds.length, ∀ q, cmds[i].Blocks q → Blocked h'.graph cmds.length q := by
  intro is
  induction is with
  | nil => rintro h h' h₀ - - - ⟨⟩; exact ⟨h₀, .refl _, nofun⟩
  | cons i is ih =>
    intro h h' h₀ hroot hnodup hpending hrun
    obtain ⟨hi, hdict⟩ := (hpending i List.mem_cons_self).record
    have hin : i < h.next := hi.trans hroot
    have hleaf : h.isLeaf i := Record.isLeaf hdict
    rw [makeCommandsTree, Act.bind_apply, splitCmd_apply hdict] at hrun
    dsimp only at hrun
    have hd := descend_descended cmds[i].last cmds[i].nodes (.dict cmds.length) h₀ hleaf hin
      (fun r hr => by cases hr; exact hroot) cmds[i].slash_not_mem
    rw [show cmds[i].nodes.getLastD [] = cmds[i].last from rfl, Act.bind_apply] at hrun
    rcases hdesc : descend i cmds[i].last cmds[i].nodes (.dict cmds.length) h with ⟨o, h₁⟩
    rw [hdesc] at hrun hd
    cases o with
    | raise e l => cases hrun
    | block => cases hrun
    | ret u =>
      obtain ⟨hinot, hnodup'⟩ := List.nodup_cons.1 hnodup
      -- the records that are still to come are as they were
      have hpending' : ∀ j ∈ is, Pending cmds h₁ j := by
        intro j hj
        obtain ⟨⟨hjlt, hjdict⟩, hno⟩ := hpending j (List.mem_cons_of_mem _ hj)
        obtain ⟨hsame, hno'⟩ := hd.frame j (hjlt.trans hroot) (fun h => hinot (h ▸ hj))
          (fun h => hjlt.ne (Val.dict.inj h).symm) hno
        exact ⟨⟨hjlt, hsame.trans hjdict⟩, hno'⟩
      obtain ⟨hok, hgrows, hblocked⟩ := ih hd.ok (hroot.trans_le hd.next) hnodup' hpending' hrun
      refine ⟨hok, hd.grows.trans hgrows, fun j hj hjlt q hq => ?_⟩
      rcases List.mem_cons.1 hj with rfl | hj
      · obtain ⟨hne, rest, hnodes, hwhy⟩ := hq
        rw [hnodes] at hdesc
        exact Blocked.grows hgrows (descend_blocked q hne h₀ hleaf hin hroot
          (hnodes ▸ cmds[j].slash_not_mem) hdesc hwhy)
      · exact hblocked j hj hjlt q hq

/-! ## Paths that are not in each other's way -/

/-- **The condition on the paths**: none is the beginning of another, none comes twice to
a node like its last, and only a first node is named `__index`. -/
structure Separate (cmds : List Record) : Prop where
  start : ∀ i ∈ cmds, ∀ j ∈ cmds, i.nodes <+: j.nodes → i.nodes = j.nodes
  last : ∀ i ∈ cmds, i.last ∉ i.nodes.dropLast
  index : ∀ i ∈ cmds, "__index".toList ∉ i.nodes.tail

/-- No path goes on where another ends. -/
theorem Separate.not_before {cmds : List Record} (hsep : Separate cmds) {i j : Record} (hi : i ∈ cmds)
    (hj : j ∈ cmds) {k : Bytes} {rest : List Bytes} : i.nodes ≠ j.nodes ++ k :: rest := by
  intro h
  have heq := hsep.start _ hj _ hi ⟨k :: rest, h.symm⟩
  rw [heq] at h
  simp at h

/-- The dictionaries are the tree of the paths in `D`: its leaves are the records, as they
were, at the end of their own paths. -/
structure Tree (cmds : List Record) (h : Heap) (D : Set (List Bytes)) (place : List Bytes → Ref) : Prop
    extends Draws h.graph D place where
  ok : h.Ok
  root : place [] = cmds.length
  lt : ∀ q ∈ D, place q < h.next
  record : ∀ i (hi : i < cmds.length), h.dict i = cmds[i].dict
  leaf : ∀ q ∈ D, ∀ hi : place q < cmds.length, cmds[place q].nodes = q
  own : ∀ i (hi : i < cmds.length), cmds[i].nodes ∈ D → place cmds[i].nodes = i
  inner : ∀ q ∈ D, cmds.length ≤ place q → ∀ k, h.get (place q) k ≠ none → q ++ [k] ∈ D

theorem Record.lookup_dict (i : Record) (k : Bytes) :
    i.dict.lookup k = none ∨ '/' ∉ k ∧ ∃ v, i.dict.lookup k = some v ∧ ∀ r, v ≠ .dict r := by
  have hinsert : ∀ (d : Dict) (k' : Bytes) (v : Val), (∀ r, v ≠ .dict r) → '/' ∉ k' →
      (d.lookup k = none ∨ '/' ∉ k ∧ ∃ v, d.lookup k = some v ∧ ∀ r, v ≠ .dict r) →
      ((d.insert k' v).lookup k = none ∨ '/' ∉ k ∧ ∃ w, (d.insert k' v).lookup k = some w ∧
        ∀ r, w ≠ .dict r) := by
    intro d k' v hv hk' hd
    by_cases hk : k = k'
    · subst hk
      exact Or.inr ⟨hk', v, AList.lookup_insert _, hv⟩
    · rwa [AList.lookup_insert_ne hk]
  exact hinsert _ _ _ nofun (by decide) <| hinsert _ _ _ nofun (by decide) <|
    hinsert _ _ _ nofun (by decide) <| hinsert _ _ _ nofun (by decide) <|
    hinsert _ _ _ nofun (by decide) <| hinsert _ _ _ nofun (by decide) <| Or.inl rfl

theorem Record.edge_none {h : Heap} {i : Record} {r : Ref} (hr : h.dict r = i.dict) (k : Bytes) :
    h.edge r k = none := by
  refine Option.eq_none_iff_forall_ne_some.2 fun v hv => ?_
  have hv := Heap.edge_eq_some.1 hv
  rw [Heap.get, hr] at hv
  rcases i.lookup_dict k with hnone | ⟨-, w, hw, hno⟩
  · rw [hnone] at hv; cases hv
  · rw [hw] at hv
    exact hno v (Option.some.inj hv)

/-- Before there is a path no entry is a dictionary. -/
theorem load_get (cmds : List Record) (r : Ref) (k : Bytes) : (Heap.load cmds).get r k = none ∨
    '/' ∉ k ∧ ∃ v, (Heap.load cmds).get r k = some v ∧ ∀ r, v ≠ .dict r := by
  have hcases : (Heap.load cmds).dict r = ∅ ∨ ∃ i, (Heap.load cmds).dict r = Record.dict i := by
    unfold Heap.load
    dsimp only
    cases cmds[r]? with
    | none => exact Or.inl rfl
    | some i => exact Or.inr ⟨i, rfl⟩
  unfold Heap.get
  rcases hcases with hr | ⟨i, hr⟩ <;> rw [hr]
  · exact Or.inl rfl
  · exact i.lookup_dict k

/-- **The dictionaries of the help table**, before there is a path. -/
theorem tree_load (cmds : List Record) : Tree cmds (.load cmds) {[]} fun _ => cmds.length where
  nil := rfl
  closed q k h := by simp at h
  inj := by rintro p rfl q rfl -; rfl
  edge := by
    rintro q rfl k v
    have hempty : (Heap.load cmds).dict cmds.length = ∅ := by simp [Heap.load]
    refine ⟨fun h => ?_, fun h => by simp at h⟩
    have h := Heap.edge_eq_some.1 h
    rw [Heap.get, hempty] at h
    cases h
  ok := by
    refine ⟨fun r hr => ?_, fun r k v hv => ?_, fun r k hk => ?_⟩
    · have : cmds[r]? = none := List.getElem?_eq_none (Nat.le_of_succ_le hr)
      simp [Heap.load, this]
    · rcases load_get cmds r k with hnone | ⟨-, w, hw, hno⟩
      · rw [hnone] at hv; cases hv
      · rw [hw] at hv; exact absurd (Option.some.inj hv) (hno v)
    · exact ((load_get cmds r k).resolve_left hk).1
  root := rfl
  lt _ _ := Nat.lt_succ_self _
  record i hi := by simp [Heap.load, hi]
  leaf _ _ hi := absurd hi (lt_irrefl _)
  own _ _ hn := absurd hn (Record.nodes_ne_nil _)
  inner := by
    rintro q rfl - k hk
    have hempty : (Heap.load cmds).dict cmds.length = ∅ := by simp [Heap.load]
    rw [Heap.get, hempty] at hk
    exact absurd rfl hk

/-- Before there is a path no record has been put into the tree. -/
theorem pending_load (cmds : List Record) : ∀ i ∈ List.range cmds.length, Pending cmds (.load cmds) i := by
  intro i hi
  have hi := List.mem_range.1 hi
  refine ⟨⟨hi, (tree_load cmds).record i hi⟩, fun r k hk => ?_⟩
  rcases load_get cmds r k with hnone | ⟨-, w, hw, hno⟩
  · rw [hnone] at hk; cases hk
  · rw [hw] at hk; exact hno i (Option.some.inj hk)

/-- **One node** that is not yet there: a new dictionary, or a record at its own path. -/
theorem Tree.extend {h h' : Heap} {D : Set (List Bytes)} {place : List Bytes → Ref}
    (t : Tree cmds h D place) {q : List Bytes} {k : Bytes} {c : Ref}
    (he : Entered h h' (place q) k (.dict c)) (hq : q ∈ D) (hinner : cmds.length ≤ place q)
    (hk : '/' ∉ k) (hnew : q ++ [k] ∉ D)
    (hc : (c = h.next ∧ h.next < h'.next) ∨ ∃ hi : c < cmds.length, cmds[c].nodes = q ++ [k])
    (hown : ∀ i (hi : i < cmds.length), cmds[i].nodes = q ++ [k] → i = c) :
    Tree cmds h' (insert (q ++ [k]) D) (Function.update place (q ++ [k]) c) := by
  have hroot : cmds.length < h.next := t.root ▸ t.lt [] t.nil
  have hcnext : c < h'.next := by
    rcases hc with ⟨rfl, hlt⟩ | ⟨hi, -⟩
    · exact hlt
    · exact hi.trans (hroot.trans_le he.next)
  have hcq : c ≠ place q := by
    rintro rfl
    rcases hc with ⟨hc, -⟩ | ⟨hi, -⟩
    · exact (t.lt q hq).ne hc
    · exact absurd hi (not_lt.2 hinner)
  have hcdict : h'.dict c = h.dict c := he.dict c hcq
  have hold : ∀ p ∈ D, Function.update place (q ++ [k]) c p = place p := fun p hp =>
    Function.update_of_ne (by rintro rfl; exact hnew hp) _ _
  -- nothing leads on from the new node: it is empty, or a record
  have hleaf : ∀ k', h'.edge c k' = none := by
    intro k'
    rcases hc with ⟨rfl, -⟩ | ⟨hi, -⟩
    · rw [Heap.edge, Heap.get, hcdict, t.ok.fresh _ le_rfl]; rfl
    · exact Record.edge_none (hcdict.trans (t.record c hi)) k'
  have hsame : ∀ p ∈ D, ∀ k', ¬ (p = q ∧ k' = k) → h'.get (place p) k' = h.get (place p) k' :=
    fun p hp k' hne => he.elsewhere _ _ fun h => hne ⟨t.inj hp hq h.1, h.2⟩
  have hdraws : Draws h'.graph (insert (q ++ [k]) D) (Function.update place (q ++ [k]) c) :=
    t.toDraws.extend hq hnew (fun p hp hpc => ?_) hleaf (Heap.edge_eq_some.2 he.here)
      fun p hp k' hne => ?_
  · refine { hdraws with
      ok := he.ok t.ok (t.lt q hq) hk fun _ h => (Val.dict.inj h) ▸ hcnext
      root := by rw [hold [] t.nil, t.root]
      lt := ?_, record := ?_, leaf := ?_, own := ?_, inner := ?_ }
    · rintro p (rfl | hp)
      · rwa [Function.update_self]
      · rw [hold p hp]; exact (t.lt p hp).trans_le he.next
    · intro i hi
      rw [he.dict i (hi.trans_le hinner).ne, t.record i hi]
    · rintro p (rfl | hp) hi
      · simp only [Function.update_self] at hi ⊢
        rcases hc with ⟨rfl, -⟩ | ⟨_, hn⟩
        · exact absurd hi (not_lt.2 hroot.le)
        · exact hn
      · simp only [hold p hp] at hi ⊢
        exact t.leaf p hp hi
    · rintro i hi (heq | hp)
      · rw [heq, Function.update_self]
        exact (hown i hi heq).symm
      · rw [hold _ hp]
        exact t.own i hi hp
    · rintro p (rfl | hp) hle k' hk'
      · rw [Function.update_self] at hle hk'
        rcases hc with ⟨rfl, -⟩ | ⟨hi, -⟩
        · rw [Heap.get, hcdict, t.ok.fresh _ le_rfl] at hk'
          exact absurd rfl hk'
        · exact absurd hi (not_lt.2 hle)
      · rw [hold p hp] at hle hk'
        by_cases hpk : p = q ∧ k' = k
        · obtain ⟨rfl, rfl⟩ := hpk
          exact Set.mem_insert _ _
        · rw [hsame p hp k' hpk] at hk'
          exact Set.mem_insert_of_mem _ (t.inner p hp hle k' hk')
  · subst hpc
    rcases hc with ⟨hc, -⟩ | ⟨hi, hn⟩
    · exact (t.lt p hp).ne hc
    · exact hnew (hn ▸ (t.leaf p hp hi).symm ▸ hp)
  · exact congrArg (fun o : Option Val => match o with
      | some (.dict v) => some v
      | _ => none) (hsame p hp k' hne)

/-- The last node of a path. -/
theorem Record.eq_last {r : Record} {q : List Bytes} {k : Bytes} (h : r.nodes = q ++ [k]) : k = r.last := by
  have heq := r.nodes_eq
  rw [h] at heq
  exact (List.cons.inj (List.append_inj' heq rfl).2).1

/-- A node before the last does not look like it. -/
theorem Separate.ne_last (hsep : Separate cmds) {r : Record} (hr : r ∈ cmds) {q rest : List Bytes} {k k' : Bytes}
    (h : r.nodes = (q ++ [k]) ++ k' :: rest) : k ≠ r.last := by
  intro heq
  refine hsep.last _ hr (heq ▸ ?_)
  rw [h, List.dropLast_append_of_ne_nil (by simp)]
  simp

/-- The beginnings of a path that are not there yet. -/
theorem Tree.insert_eq {h : Heap} {D : Set (List Bytes)} {place : List Bytes → Ref} (t : Tree cmds h D place)
    {q : List Bytes} (hq : q ∈ D) (k : Bytes) : insert (q ++ [k]) D = {p | p ∈ D ∨ p <+: q ++ [k]} := by
  ext p
  rw [Set.mem_ofPred_eq, Set.mem_insert_iff, List.prefix_concat_iff]
  constructor
  · rintro (hp | hp)
    · exact Or.inr (Or.inl hp)
    · exact Or.inl hp
  · rintro (hp | hp | ⟨s, rfl⟩)
    · exact Or.inr hp
    · exact Or.inl hp
    · exact Or.inr (t.of_append hq)

/-- **A path that is in the way of no other.** -/
theorem descend_tree (hsep : Separate cmds) {i : Ref} (hi : i < cmds.length)
    (hdis : ∀ j (hj : j < cmds.length), cmds[j].nodes = cmds[i].nodes → j = i) :
    ∀ (rest q : List Bytes) {h : Heap} {D : Set (List Bytes)} {place : List Bytes → Ref},
    Tree cmds h D place → q ∈ D → cmds[i].nodes = q ++ rest → rest ≠ [] → cmds[i].nodes ∉ D →
    ∃ h' place', descend i cmds[i].last rest (.dict (place q)) h = (.ret (), h') ∧
      Tree cmds h' {p | p ∈ D ∨ p <+: cmds[i].nodes} place' := by
  intro rest
  induction rest with
  | nil => intro q h D place _ _ _ hne; exact absurd rfl hne
  | cons k rest ih =>
    intro q h D place t hq hnodes _ hnew
    have hmem := List.getElem_mem hi
    have hk : '/' ∉ k := cmds[i].slash_not_mem k (by rw [hnodes]; simp)
    have hinner : cmds.length ≤ place q := by
      -- at a record its own path would end, and be the beginning of this one
      by_contra hlt
      have hlt := not_le.1 hlt
      have hleaf := t.leaf q hq hlt
      exact hsep.not_before hmem (List.getElem_mem hlt) (hnodes.trans (by rw [hleaf]))
    obtain ⟨v, h', henter, he, hcase⟩ := enter_cases (t.ok.fresh _ le_rfl) i cmds[i].last k (place q)
    rw [descend_cons henter]
    cases rest with
    | nil =>
      -- the end of the path: the record is put there
      have hlast : k = cmds[i].last := Record.eq_last hnodes
      have hv : v = .dict i := by
        rcases hcase with ⟨-, hv⟩ | ⟨hne, -⟩ | ⟨hne, -⟩
        · exact hv
        · exact absurd hlast hne
        · exact absurd hlast hne
      subst hv
      refine ⟨h', Function.update place (q ++ [k]) i, rfl, ?_⟩
      rw [hnodes, ← t.insert_eq hq]
      exact t.extend he hq hinner hk (hnodes ▸ hnew) (Or.inr ⟨hi, hnodes⟩)
        fun j hj heq => hdis j hj (heq.trans hnodes.symm)
    | cons k' rest =>
      have hnodes' : cmds[i].nodes = (q ++ [k]) ++ k' :: rest := by rw [hnodes]; simp
      have hlast : k ≠ cmds[i].last := hsep.ne_last hmem hnodes'
      rcases hcase with ⟨heq, -⟩ | ⟨-, hget, rfl⟩ | ⟨-, hnone, rfl, hlt⟩
      · exact absurd heq hlast
      · -- the node is there
        have hD : q ++ [k] ∈ D := t.inner q hq hinner k (by rw [hget]; exact nofun)
        have hedge := Heap.edge_eq_some.1 ((t.edge q hq k _).2 ⟨hD, rfl⟩)
        obtain rfl : v = _ := Option.some.inj (hget.symm.trans hedge)
        exact ih (q ++ [k]) t hD hnodes' (by simp) hnew
      · -- the node is not there: a new dictionary
        have hD : q ++ [k] ∉ D := by
          intro hD
          rw [Heap.edge_eq_some.1 ((t.edge q hq k _).2 ⟨hD, rfl⟩)] at hnone
          cases hnone
        have t' := t.extend he hq hinner hk hD (Or.inl ⟨rfl, hlt⟩) fun j hj heq =>
          absurd (hnodes'.trans (by rw [heq])) (hsep.not_before hmem (List.getElem_mem hj))
        obtain ⟨h'', place', hrun, t''⟩ := ih (q ++ [k]) t' (Set.mem_insert _ _) hnodes' (by simp) (by
          rw [Set.mem_insert_iff, not_or]
          exact ⟨by rw [hnodes']; simp, hnew⟩)
        rw [Function.update_self] at hrun
        refine ⟨h'', place', hrun, ?_⟩
        convert t'' using 1
        ext p
        simp only [Set.mem_ofPred_eq, Set.mem_insert_iff]
        refine or_congr_left' fun hp => (or_iff_right ?_).symm
        rintro rfl
        exact hp ⟨k' :: rest, hnodes'.symm⟩

/-- **All paths**, if none is in the way of another. -/
theorem makeCommandsTree_tree (hsep : Separate cmds)
    (hdis : ∀ i j (hi : i < cmds.length) (hj : j < cmds.length), cmds[i].nodes = cmds[j].nodes → i = j) :
    ∀ (is : List Ref) {h : Heap} {D : Set (List Bytes)} {place : List Bytes → Ref},
    Tree cmds h D place → (∀ i ∈ is, ∃ hi : i < cmds.length, cmds[i].nodes ∉ D) → is.Nodup →
    ∃ h' place', makeCommandsTree cmds.length is h = (.ret (), h') ∧
      Tree cmds h' {p | p ∈ D ∨ ∃ i ∈ is, ∃ hi : i < cmds.length, p <+: cmds[i].nodes} place' := by
  intro is
  induction is with
  | nil => intro h D place t _ _; exact ⟨h, place, rfl, by simpa using t⟩
  | cons i is ih =>
    intro h D place t his hnodup
    obtain ⟨hi, hnew⟩ := his i List.mem_cons_self
    obtain ⟨hinot, hnodup'⟩ := List.nodup_cons.1 hnodup
    obtain ⟨h₁, place₁, hrun, t₁⟩ := descend_tree hsep hi (fun j hj => hdis j i hj hi) cmds[i].nodes []
      t t.nil rfl cmds[i].nodes_ne_nil hnew
    obtain ⟨h', place', hrun', t'⟩ := ih t₁ (fun j hj => by
      obtain ⟨hj', hnew'⟩ := his j (List.mem_cons_of_mem _ hj)
      refine ⟨hj', fun h => h.elim hnew' fun hpre => ?_⟩
      have := hsep.start _ (List.getElem_mem hj') _ (List.getElem_mem hi) hpre
      exact hinot (hdis j i hj' hi this ▸ hj)) hnodup'
    refine ⟨h', place', ?_, ?_⟩
    · rw [t.root] at hrun
      rw [makeCommandsTree, Act.bind_apply, splitCmd_apply (t.record i hi)]
      dsimp only
      rw [Act.bind_apply, show cmds[i].nodes.getLastD [] = cmds[i].last from rfl, hrun]
      exact hrun'
    · convert t' using 1
      ext p
      simp only [Set.mem_ofPred_eq, List.mem_cons, exists_eq_or_imp, or_assoc, hi, exists_true_left]

end Vdetelweb
