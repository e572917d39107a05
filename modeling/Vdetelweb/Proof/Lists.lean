import Vdetelweb.Proof.Boxes
import Vdetelweb.Spec.Lists

/-!
# What the functions of a named list do

A list in memory stands for a list of entries (`Lists.Entries`), as that of the sockets does.
The equations say what `Add` and `Delete` leave behind, by where `head_x` and `tail_x` point and
by the entry that has the name.
-/

namespace Vdetelweb.Lists

open BoxList CString Linked

variable {g g' : Lists} {x y t h : ListName} {es : List (Addr × Added)}

/-- **The list stands for these entries.** -/
def Entries (g : Lists) (x : ListName) (es : List (Addr × Added)) : Prop :=
  Chain g.nodes Shows (g.head x) es none

/-! ## Assignments -/

@[simp] theorem setHead_nodes (p : Option Addr) : (g.setHead x p).nodes = g.nodes := rfl
@[simp] theorem setHead_tail (p : Option Addr) : (g.setHead x p).tail = g.tail := rfl
@[simp] theorem setHead_boxes (p : Option Addr) : (g.setHead x p).boxes = g.boxes := rfl
@[simp] theorem setHead_head_self (p : Option Addr) : (g.setHead x p).head x = p := Function.update_self ..
@[simp] theorem setTail_nodes (p : Option Addr) : (g.setTail x p).nodes = g.nodes := rfl
@[simp] theorem setTail_head (p : Option Addr) : (g.setTail x p).head = g.head := rfl
@[simp] theorem setTail_boxes (p : Option Addr) : (g.setTail x p).boxes = g.boxes := rfl
@[simp] theorem setTail_tail_self (p : Option Addr) : (g.setTail x p).tail x = p := Function.update_self ..
@[simp] theorem write_nodes (k : Addr) (c : Cell Addr BoxNode) :
    (g.write k c).nodes = g.nodes.insert k c := rfl
@[simp] theorem write_head (k : Addr) (c : Cell Addr BoxNode) : (g.write k c).head = g.head := rfl
@[simp] theorem write_tail (k : Addr) (c : Cell Addr BoxNode) : (g.write k c).tail = g.tail := rfl
@[simp] theorem write_boxes (k : Addr) (c : Cell Addr BoxNode) : (g.write k c).boxes = g.boxes := rfl
@[simp] theorem free_nodes (k : Addr) : (g.free k).nodes = g.nodes.erase k := rfl
@[simp] theorem free_head (k : Addr) : (g.free k).head = g.head := rfl
@[simp] theorem free_tail (k : Addr) : (g.free k).tail = g.tail := rfl
@[simp] theorem free_boxes (k : Addr) : (g.free k).boxes = g.boxes := rfl

theorem setHead_head_ne (hy : y ≠ x) (p : Option Addr) : (g.setHead x p).head y = g.head y :=
  Function.update_of_ne hy ..

theorem setTail_tail_ne (hy : y ≠ x) (p : Option Addr) : (g.setTail x p).tail y = g.tail y :=
  Function.update_of_ne hy ..

theorem setHead_self : g.setHead x (g.head x) = g := by
  rw [setHead, Function.update_eq_self]

theorem write_write (k : Addr) (c d : Cell Addr BoxNode) : (g.write k c).write k d = g.write k d := by
  simp only [write, Finmap.insert_insert]

/-- What stands there is written. -/
theorem write_self {k : Addr} {c : Cell Addr BoxNode} (hc : g.nodes.lookup k = some c) : g.write k c = g := by
  have hnodes : g.nodes.insert k c = g.nodes := by
    apply Finmap.ext_lookup
    intro j
    by_cases hj : j = k
    · rw [hj, Finmap.lookup_insert, hc]
    · rw [Finmap.lookup_insert_of_ne _ hj]
  rw [write, hnodes]

/-! ## Additions -/

section

variable {item : Addr} {name : CStr} {block : Option Block} {b : Block} {field : Bytes} {k : Addr}
  {c : Cell Addr BoxNode}

/-- What `strcpy` makes of the name in a new node. -/
theorem exists_field (b : Block) (hname : name.1.length < nameSize) :
    ∃ field, strcpy nul b.cell.value.name name.1 = .ok field ∧ read nul field = .ok name.1 := by
  have hsize : name.1.length < b.cell.value.name.length := by rwa [b.sized]
  obtain ⟨field, hfield, -, hread⟩ := strcpy_of_lt nul hsize
  exact ⟨field, hfield, hread name.2⟩

theorem strcpy_of_long (b : Block) (hname : ¬ name.1.length < nameSize) :
    strcpy nul b.cell.value.name name.1 = .error .write := by
  rw [strcpy, b.sized, if_neg hname]

theorem fill_new (hfield : strcpy nul b.cell.value.name name.1 = .ok field)
    (hnode : g.nodes.lookup b.addr = some b.cell) :
    g.fill b.addr item name = some (g.write b.addr ⟨⟨field, item⟩, none⟩) := by
  simp [fill, hnode, hfield, Except.toOption]

theorem fill_of_long (hname : ¬ name.1.length < nameSize) (hnode : g.nodes.lookup b.addr = some b.cell) :
    g.fill b.addr item name = none := by
  simp [fill, hnode, strcpy_of_long b hname, Except.toOption]

theorem add_first_null (hhead : g.head x = none) : g.add x t item name none = some (-1, g) := by
  have hself : g.setHead x none = g := hhead ▸ setHead_self
  simp [add, hhead, addFirst, malloc, hself]

/-- The state after an addition to an empty list. -/
def started (g : Lists) (x t : ListName) (k item : Addr) (field : Bytes) : Lists :=
  ((g.write k ⟨⟨field, item⟩, none⟩).setHead x (some k)).setTail t (some k)

/-- The state after an addition behind the cell `c` at `j`. -/
def appended (g : Lists) (x : ListName) (j : Addr) (c : Cell Addr BoxNode) (k item : Addr) (field : Bytes) : Lists :=
  ((g.write j { c with next := some k }).write k ⟨⟨field, item⟩, none⟩).setTail x (some k)

theorem add_first (hhead : g.head x = none) (hfield : strcpy nul b.cell.value.name name.1 = .ok field) :
    g.add x t item name (some b) = some (0, g.started x t b.addr item field) := by
  have hfill : ((g.write b.addr b.cell).setHead x (some b.addr)).fill b.addr item name =
      some ((g.write b.addr ⟨⟨field, item⟩, none⟩).setHead x (some b.addr)) := by
    rw [fill_new hfield (Finmap.lookup_insert _)]
    exact congrArg (fun g : Lists => some (g.setHead x (some b.addr))) (write_write ..)
  simp [add, hhead, addFirst, malloc, hfill, started]

theorem add_behind_null (hhead : g.head x ≠ none) (htail : g.tail x = some k) (hc : g.nodes.lookup k = some c) :
    g.add x t item name none = some (-1, (g.write k { c with next := none }).setTail x none) := by
  obtain ⟨head, hhead⟩ := Option.ne_none_iff_exists'.1 hhead
  simp [add, hhead, addBehind, malloc, htail, hc]

theorem add_behind (hhead : g.head x ≠ none) (htail : g.tail x = some k) (hc : g.nodes.lookup k = some c)
    (hne : b.addr ≠ k) (hfield : strcpy nul b.cell.value.name name.1 = .ok field) :
    g.add x t item name (some b) = some (0, g.appended x k c b.addr item field) := by
  obtain ⟨head, hhead⟩ := Option.ne_none_iff_exists'.1 hhead
  have hnode : (((g.write b.addr b.cell).write k { c with next := some b.addr }).setTail x
      (some b.addr)).nodes.lookup b.addr = some b.cell := by
    rw [setTail_nodes, write_nodes, Finmap.lookup_insert_of_ne _ hne, write_nodes, Finmap.lookup_insert]
  have hwrite : ((g.write b.addr b.cell).write k { c with next := some b.addr }).write b.addr ⟨⟨field, item⟩, none⟩ =
      (g.write k { c with next := some b.addr }).write b.addr ⟨⟨field, item⟩, none⟩ := by
    simp only [write, Finmap.insert_insert_of_ne _ hne, Finmap.insert_insert]
  have hfill : (((g.write b.addr b.cell).write k { c with next := some b.addr }).setTail x (some b.addr)).fill
      b.addr item name = some (g.appended x k c b.addr item field) := by
    rw [fill_new hfield hnode, appended, ← hwrite]
    rfl
  simp [add, hhead, addBehind, malloc, htail, hc, hfill]

/-- A list with one entry. -/
theorem entries_started (item : Addr) (k : Addr) (hread : read nul field = .ok name.1) :
    (g.started x t k item field).Entries x [(k, ⟨name.1, item⟩)] := by
  have hnode : (g.started x t k item field).nodes.lookup k = some ⟨⟨field, item⟩, none⟩ :=
    Finmap.lookup_insert _
  exact ⟨by simp [started], _, hnode, ⟨hread, rfl⟩, rfl⟩

/-- An entry behind the last. -/
theorem Entries.appended {e : Addr × Added} (hes : g.Entries x (es ++ [e])) (hfresh : k ∉ g.nodes)
    (item : Addr) (hread : read nul field = .ok name.1) : ∃ c, g.nodes.lookup e.1 = some c ∧
      (g.appended x e.1 c k item field).Entries x (es ++ [e] ++ [(k, ⟨name.1, item⟩)]) := by
  have hshows : Shows ⟨field, item⟩ ⟨name.1, item⟩ := ⟨hread, rfl⟩
  obtain ⟨c, hc, hchain⟩ := Chain.snoc hes hfresh hshows
  refine ⟨c, hc, ?_⟩
  rw [List.append_assoc]
  exact hchain

/-- `tail_x` is written through. -/
theorem add_of_tail_not_live (hhead : g.head x ≠ none) (htail : ∀ k, g.tail x = some k → k ∉ g.nodes) :
    g.add x t item name block = none := by
  obtain ⟨head, hhead⟩ := Option.ne_none_iff_exists'.1 hhead
  cases hk : g.tail x with
  | none => simp [add, hhead, addBehind, hk]
  | some k => simp [add, hhead, addBehind, hk, Finmap.lookup_eq_none.2 (htail k hk)]

/-- The name does not fit. -/
theorem add_of_long (hfresh : b.addr ∉ g.nodes) (hname : ¬ name.1.length < nameSize) :
    g.add x t item name (some b) = none := by
  cases hhead : g.head x with
  | none =>
    have hfill : ((g.write b.addr b.cell).setHead x (some b.addr)).fill b.addr item name = none :=
      fill_of_long hname (Finmap.lookup_insert _)
    simp [add, hhead, addFirst, malloc, hfill]
  | some head =>
    cases hk : g.tail x with
    | none => simp [add, hhead, addBehind, hk]
    | some k =>
      cases hc : g.nodes.lookup k with
      | none => simp [add, hhead, addBehind, hk, hc]
      | some c =>
        have hne : b.addr ≠ k := ne_of_fresh hfresh hc
        have hfill : (((g.write b.addr b.cell).write k { c with next := some b.addr }).setTail x
            (some b.addr)).fill b.addr item name = none := by
          apply fill_of_long hname
          rw [setTail_nodes, write_nodes, Finmap.lookup_insert_of_ne _ hne, write_nodes, Finmap.lookup_insert]
        simp [add, hhead, addBehind, malloc, hk, hc, hfill]

end

/-! ## Deletions -/

section

variable {name : CStr} {e f : Addr × Added} {fs : List (Addr × Added)}

theorem mem_of_head?_append {α : Type} {xs ys : List α} {a b : α} (h : (xs ++ a :: ys).head? = some b) :
    b ∈ xs ++ [a] := by
  cases xs <;> simp_all

theorem Entries.chain (hes : g.Entries x es) : Chain g.nodes Shows (g.head x) es none := hes

theorem Entries.head_eq (hes : g.Entries x es) : g.head x = es.head?.map Prod.fst := Chain.head_eq hes

theorem Entries.test (name : CStr) : ∀ e ∈ es, ∀ node, Shows node e.2 →
    strcmpZero name node.name = some (Named name e.2) :=
  fun _ _ _ hshows => strcmpZero_of_shows hshows name

theorem absent_of_not (h : ¬ ∃ e ∈ es, Named name e.2) : ∀ e ∈ es, Named name e.2 = false := by
  intro e he
  rw [← Bool.not_eq_true]
  exact fun hnamed => h ⟨e, he, hnamed⟩

/-- No entry has the name. -/
theorem Entries.delete_absent (hes : g.Entries x es) (hne : es ≠ []) (habsent : ∀ e ∈ es, Named name e.2 = false) :
    g.delete x h name = some (-1, g) := by
  obtain ⟨f, fs, rfl⟩ := List.exists_cons_of_ne_nil hne
  have hhead : g.head x = some f.1 := hes.1
  rw [List.forall_mem_cons] at habsent
  obtain ⟨c, hc, hshows⟩ := Chain.cell hes (List.mem_cons_self ..)
  have hbefore : preceding g.nodes (fun node => strcmpZero name node.name) f.1 = some none :=
    Chain.preceding_absent (hhead ▸ hes.chain) (Entries.test name) habsent.2
  simp [delete, hhead, hc, strcmpZero_of_shows hshows, habsent.1, hbefore]

/-- **The first entry** has the name. -/
theorem Entries.delete_first (hes : g.Entries x (f :: fs)) (hf : Named name f.2 = true) :
    g.delete x h name = some (IS_OK, (g.setHead h (fs.head?.map Prod.fst)).free f.1) := by
  have hhead : g.head x = some f.1 := hes.1
  obtain ⟨-, c, hc, hshows, hrest⟩ := hes
  have hnext : c.next = fs.head?.map Prod.fst := Chain.head_eq hrest
  simp [delete, hhead, hc, strcmpZero_of_shows hshows, hf, hnext]

/-- **An entry behind `e`** is the first that has the name. -/
theorem Entries.delete_behind (hes : g.Entries x (es ++ e :: f :: fs)) (habsent : ∀ x ∈ es ++ [e], Named name x.2 = false)
    (hf : Named name f.2 = true) : ∃ c d, g.nodes.lookup e.1 = some c ∧ c.next = some f.1 ∧
      g.nodes.lookup f.1 = some d ∧
      g.delete x h name = some (IS_OK, (g.write e.1 { c with next := d.next }).free f.1) := by
  obtain ⟨z, hz⟩ : ∃ z, (es ++ e :: f :: fs).head? = some z := by
    cases es <;> exact ⟨_, rfl⟩
  have hfirst : Named name z.2 = false := habsent z (mem_of_head?_append hz)
  have hhead : g.head x = some z.1 := by rw [hes.head_eq, hz]; rfl
  obtain ⟨c₀, hc₀, hshows⟩ := Chain.cell hes (List.mem_of_mem_head? hz)
  have hbefore : preceding g.nodes (fun node => strcmpZero name node.name) z.1 = some (some e.1) :=
    Chain.preceding_eq (hhead ▸ hes.chain) (Entries.test name) habsent hf
  obtain ⟨c, d, hc, hnext, hd, -⟩ := Chain.unlink hes
  refine ⟨c, d, hc, hnext, hd, ?_⟩
  simp [delete, hhead, hc₀, strcmpZero_of_shows hshows, hfirst, hbefore, hc, hnext, hd]

theorem Entries.free_first (hes : g.Entries x (f :: fs)) :
    ((g.setHead x (fs.head?.map Prod.fst)).free f.1).Entries x fs := by
  obtain ⟨c, -, -, hchain⟩ := Chain.uncons hes
  have hhead : c.next = fs.head?.map Prod.fst := hchain.head_eq
  rw [Entries, free_head, setHead_head_self, ← hhead]
  exact hchain

theorem Entries.free_behind (hes : g.Entries x (es ++ e :: f :: fs)) {c d : Cell Addr BoxNode}
    (hc : g.nodes.lookup e.1 = some c) (hd : g.nodes.lookup f.1 = some d) :
    ((g.write e.1 { c with next := d.next }).free f.1).Entries x (es ++ e :: fs) := by
  obtain ⟨c', d', hc', -, hd', hchain⟩ := Chain.unlink hes
  obtain rfl : c = c' := Option.some.inj (hc.symm.trans hc')
  obtain rfl : d = d' := Option.some.inj (hd.symm.trans hd')
  exact hchain

/-- **The first entry of a name that is there is deleted**: its node is freed, and `tail_x` stays. -/
theorem Entries.delete_found (hes : g.Entries x es) (hname : ∃ e ∈ es, Named name e.2) :
    ∃ xs f ys g', es = xs ++ f :: ys ∧ es.eraseP (fun e => Named name e.2) = xs ++ ys ∧
      g.delete x x name = some (IS_OK, g') ∧ g'.Entries x (xs ++ ys) ∧ g'.tail = g.tail ∧
      ∀ k ∈ g'.nodes, k ∈ g.nodes ∧ k ≠ f.1 := by
  obtain ⟨e, he, hnamed⟩ := hname
  obtain ⟨f, xs, ys, hxs, hf, rfl, herase⟩ := List.exists_of_eraseP (p := fun e => Named name e.2) he hnamed
  rcases List.eq_nil_or_concat xs with rfl | ⟨xs, e, rfl⟩
  · exact ⟨[], f, ys, _, rfl, herase, hes.delete_first hf, hes.free_first, rfl,
      fun k hk => (Finmap.mem_erase.1 hk).symm⟩
  · rw [List.concat_eq_append] at hxs herase hes ⊢
    have hes' : g.Entries x (xs ++ e :: f :: ys) := by simpa using hes
    obtain ⟨c, d, hc, hnext, hd, hdelete⟩ := hes'.delete_behind (h := x) (fun z hz => by simpa using hxs z hz) hf
    refine ⟨xs ++ [e], f, ys, _, rfl, herase, hdelete, ?_, rfl, fun k hk => ?_⟩
    · simpa using hes'.free_behind hc hd
    · obtain ⟨hne, hmem⟩ := Finmap.mem_erase.1 hk
      rcases Finmap.mem_insert.1 hmem with rfl | hmem
      · exact ⟨Finmap.mem_of_lookup_eq_some hc, hne⟩
      · exact ⟨hmem, hne⟩

/-- **`Find`** sets `pos_x` to the node of the first entry of the name. -/
theorem Entries.find (hes : g.Entries x es) (found missing : ℤ) (name : CStr) :
    g.find x found missing name =
      some (if (es.find? fun e => Named name e.2).isSome then found else missing,
        g.setPos x ((es.find? fun e => Named name e.2).map Prod.fst)) := by
  have hsearch : search g.nodes (fun node => strcmpZero name node.name) (g.head x) =
      some ((es.find? fun e => Named name e.2).map Prod.fst) :=
    hes.chain.search_eq (Entries.test name)
  rw [Lists.find, hsearch]
  cases es.find? (fun e => Named name e.2) <;> rfl

end

end Vdetelweb.Lists
