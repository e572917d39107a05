import Vdetelweb.Lib.Runs
import Vdetelweb.Spec.Boxes

/-!
# The list of sockets is an ordered map

The list in memory stands for a list of entries (`Holds`), each with the address of its node.
`socketBoxAdd` puts an entry at the end (`Holds.add`), the two searches find the first entry
(`Holds.find`, `Holds.findAddress`), and `socketBoxDelete` takes out the first entry of a name
that is there (`Holds.delete`). It moves `tail_sock` when it takes out the last node, unless that
is also the first: then the list is empty, and `socketBoxAdd` does not look at `tail_sock`.

So the list is one that has been added to and deleted from in the same way
(`orderedMap_run`), and it does what the list of `Adapter` does (`Refines`).
-/

namespace Vdetelweb

namespace BoxList

open CString Linked

variable {l l' : BoxList}

/-- An addition to the list: the name, and the box. -/
structure Added where
  name : Bytes
  socbox : Addr
  deriving DecidableEq, Repr

/-- The node has the name and the box. -/
def Shows (node : BoxNode) (e : Added) : Prop := read nul node.name = .ok e.name ∧ node.socbox = e.socbox

/-- The socket in the box of an entry. -/
def socketOf (l : BoxList) (e : Added) : Option Addr := (l.boxes.lookup e.socbox).map Box.s

/-- **The list in memory stands for these entries.** -/
structure Holds (l : BoxList) (es : List (Addr × Added)) : Prop where
  chain : Chain l.nodes Shows l.head_sock es none
  last : ∀ e ∈ es.getLast?, l.tail_sock = some e.1
  kept : ∀ e ∈ es, e.2.socbox ∈ l.boxes ∧ e.2.name.length < nameSize

variable {es : List (Addr × Added)}

theorem holds_nil : Holds {} [] := ⟨rfl, by simp, by simp⟩

/-- The entry has the name. -/
def Named (name : CStr) (e : Added) : Bool := decide (e.name = name.1)

theorem strcmpZero_of_shows {node : BoxNode} {e : Added} (h : Shows node e) (name : CStr) :
    strcmpZero name node.name = some (Named name e) := by
  rw [strcmpZero, h.1]
  rfl

/-! ## Searches -/

/-- The walk comes to the end. -/
theorem checkSockets_of_chain (h : Chain l.nodes Shows l.head_sock es none) : l.checkSockets = some () := by
  have htest : ∀ e ∈ es, ∀ node, Shows node e.2 →
      ((read nul node.name).toOption.map fun _ => false) = some false := by
    intro e _ node hs
    rw [hs.1]
    rfl
  rw [BoxList.checkSockets, h.search_eq (p := fun _ => false) htest]
  rfl

theorem Holds.checkSockets (h : Holds l es) : l.checkSockets = some () := checkSockets_of_chain h.chain

/-- **`socketBoxFind`** returns the node of the first entry of the name. -/
theorem Holds.find (h : Holds l es) (name : CStr) :
    l.socketBoxFind name = some ((es.find? fun e => Named name e.2).map Prod.fst) :=
  h.chain.search_eq fun _ _ _ hs => strcmpZero_of_shows hs name

/-- The entry's box has the socket. -/
def HasSocket (l : BoxList) (s : Addr) (e : Added) : Bool := decide (l.socketOf e = some s)

theorem Holds.searchSocket (h : Holds l es) (s : Addr) :
    search l.nodes (fun node => (l.boxes.lookup node.socbox).map fun box => box.s = s) l.head_sock =
      some ((es.find? fun e => l.HasSocket s e.2).map Prod.fst) := by
  refine h.chain.search_eq fun e he node ⟨_, hsocbox⟩ => ?_
  obtain ⟨box, hbox⟩ := Finmap.mem_iff.1 (h.kept e he).1
  rw [hsocbox, hbox]
  simp [HasSocket, socketOf, hbox]

/-- **`socketFindAddress`** copies the name of the first entry with the socket. -/
theorem Holds.findAddress (h : Holds l es) {s : Addr} {e : Addr × Added}
    (he : es.find? (fun e => l.HasSocket s e.2) = some e) {name : Bytes} (hfit : e.2.name.length < name.length) :
    ∃ copied, l.socketFindAddress s name = some (IS_OK, copied) ∧ read nul copied = .ok e.2.name := by
  obtain ⟨c, hc, hname, -⟩ := h.chain.cell (List.mem_of_find?_eq_some he)
  obtain ⟨copied, hcopied, -, hread⟩ := strcpy_of_lt nul hfit
  refine ⟨copied, ?_, hread (read_nul hname)⟩
  simp [socketFindAddress, h.searchSocket, he, hc, hname, hcopied, Except.toOption]

theorem Holds.findAddress_of_none (h : Holds l es) {s : Addr}
    (he : es.find? (fun e => l.HasSocket s e.2) = none) (name : Bytes) :
    l.socketFindAddress s name = some (NOT_OK, name) := by
  simp [socketFindAddress, h.searchSocket, he]

/-! ## Additions -/

/-- A box that is written to keeps its socket, and so do the others. -/
theorem socketOf_insert {newbox : Addr} {box : Box} (hbox : l.boxes.lookup newbox = some box)
    (callback : Option Addr) (e : Added) :
    (({ l with boxes := l.boxes.insert newbox { box with callback } } : BoxList).socketOf e) =
      l.socketOf e := by
  unfold socketOf
  by_cases he : e.socbox = newbox
  · rw [he, hbox, Finmap.lookup_insert]
    rfl
  · rw [Finmap.lookup_insert_of_ne _ he]

theorem Holds.kept_add (h : Holds l es) {newbox : Addr} {name : Bytes} (hname : name.length < nameSize)
    (box : Box) (node : Addr) : ∀ x ∈ es ++ [(node, (⟨name, newbox⟩ : Added))],
    x.2.socbox ∈ l.boxes.insert newbox box ∧ x.2.name.length < nameSize := by
  intro x hx
  rcases List.mem_append.1 hx with hx | hx
  · exact ⟨Finmap.mem_insert.2 (Or.inr (h.kept x hx).1), (h.kept x hx).2⟩
  · obtain rfl := List.mem_singleton.1 hx
    exact ⟨Finmap.mem_insert.2 (Or.inl rfl), hname⟩

section

variable {newbox : Addr} {name : CStr} {block : Block} {field : Bytes} {box : Box}

/-- The first node. `tail_sock` is not looked at. -/
theorem Holds.add_first (h : Holds l []) (callback : Option Addr) (hbox : l.boxes.lookup newbox = some box)
    (hname : name.1.length < nameSize) (hfield : strcpy nul block.cell.value.name name.1 = .ok field)
    (hread : read nul field = .ok name.1) :
    ∃ l', l.socketBoxAdd newbox name callback (some block) = some (0, l') ∧
      Holds l' [(block.addr, ⟨name.1, newbox⟩)] ∧ l'.boxes = l.boxes.insert newbox { box with callback } := by
  have hhead : l.head_sock = none := h.chain
  have h' : Holds
      { nodes := l.nodes.insert block.addr ⟨⟨field, newbox⟩, none⟩
        boxes := l.boxes.insert newbox { box with callback }
        head_sock := some block.addr
        tail_sock := some block.addr } [(block.addr, ⟨name.1, newbox⟩)] :=
    ⟨⟨rfl, ⟨⟨field, newbox⟩, none⟩, Finmap.lookup_insert _, ⟨hread, rfl⟩, rfl⟩, by simp,
      h.kept_add hname _ _⟩
  refine ⟨_, ?_, h', rfl⟩
  simp [socketBoxAdd, malloc, fill, hhead, hbox, hfield, Except.toOption, Finmap.lookup_insert,
    h'.checkSockets]

/-- A node behind the last. -/
theorem Holds.add_behind {e : Addr × Added} (h : Holds l (es ++ [e])) (callback : Option Addr)
    (hbox : l.boxes.lookup newbox = some box) (hname : name.1.length < nameSize)
    (hfield : strcpy nul block.cell.value.name name.1 = .ok field) (hread : read nul field = .ok name.1)
    (hfresh : block.addr ∉ l.nodes) :
    ∃ l', l.socketBoxAdd newbox name callback (some block) = some (0, l') ∧
      Holds l' (es ++ [e] ++ [(block.addr, ⟨name.1, newbox⟩)]) ∧
      l'.boxes = l.boxes.insert newbox { box with callback } := by
  obtain ⟨head, hhead⟩ : ∃ head, l.head_sock = some head := by
    rw [h.chain.head_eq]
    cases es <;> exact ⟨_, rfl⟩
  have htail : l.tail_sock = some e.1 := h.last e (by simp)
  have hshows : Shows ⟨field, newbox⟩ ⟨name.1, newbox⟩ := ⟨hread, rfl⟩
  obtain ⟨c, hc, hchain⟩ := h.chain.snoc hfresh hshows
  have hne : block.addr ≠ e.1 := ne_of_fresh hfresh hc
  have h' : Holds
      { nodes := (l.nodes.insert e.1 { c with next := some block.addr }).insert block.addr
          ⟨⟨field, newbox⟩, none⟩
        boxes := l.boxes.insert newbox { box with callback }
        head_sock := some head
        tail_sock := some block.addr } (es ++ [e] ++ [(block.addr, ⟨name.1, newbox⟩)]) :=
    ⟨by rwa [List.append_assoc, ← hhead], by simp, h.kept_add hname _ _⟩
  refine ⟨_, ?_, h', rfl⟩
  simp [socketBoxAdd, malloc, fill, hhead, htail, hc, hbox, hfield, Except.toOption,
    Finmap.lookup_insert, Finmap.insert_insert_of_ne _ hne, h'.checkSockets]

/-- **`socketBoxAdd`** puts an entry at the end. -/
theorem Holds.add (h : Holds l es) (callback : Option Addr) (hbox : newbox ∈ l.boxes)
    (hname : name.1.length < nameSize) (hfresh : block.addr ∉ l.nodes) :
    ∃ l', l.socketBoxAdd newbox name callback (some block) = some (0, l') ∧
      Holds l' (es ++ [(block.addr, ⟨name.1, newbox⟩)]) ∧ l'.socketOf = l.socketOf := by
  obtain ⟨box, hb⟩ := Finmap.mem_iff.1 hbox
  have hsize : name.1.length < block.cell.value.name.length := by rwa [block.sized]
  obtain ⟨field, hfield, -, hread⟩ := strcpy_of_lt nul hsize
  have hsocket : ∀ l' : BoxList, l'.boxes = l.boxes.insert newbox { box with callback } →
      l'.socketOf = l.socketOf := by
    intro l' hboxes
    funext e
    rw [← socketOf_insert hb callback, socketOf, hboxes]
    rfl
  rcases List.eq_nil_or_concat es with rfl | ⟨es, e, rfl⟩
  · obtain ⟨l', hadd, h', hboxes⟩ := h.add_first callback hb hname hfield (hread name.2)
    exact ⟨l', hadd, h', hsocket l' hboxes⟩
  · rw [List.concat_eq_append] at h ⊢
    obtain ⟨l', hadd, h', hboxes⟩ := h.add_behind callback hb hname hfield (hread name.2) hfresh
    exact ⟨l', hadd, h', hsocket l' hboxes⟩

end

/-! ## Deletions -/

/-- **The first node is taken out.** -/
theorem Holds.delete_first {f : Addr × Added} (h : Holds l (f :: es)) {name : CStr}
    (hf : Named name f.2 = true) :
    ∃ l', l.socketBoxDelete name = some (IS_OK, l') ∧ Holds l' es ∧ l'.boxes = l.boxes := by
  have hhead : l.head_sock = some f.1 := h.chain.1
  obtain ⟨c, hc, hshows, hchain⟩ := h.chain.uncons
  have h' : Holds { l with head_sock := c.next, nodes := l.nodes.erase f.1 } es :=
    ⟨hchain, fun x hx => h.last x (List.mem_getLast?_cons hx),
      fun x hx => h.kept x (List.mem_cons_of_mem f hx)⟩
  refine ⟨_, ?_, h', rfl⟩
  simp [socketBoxDelete, hhead, hc, strcmpZero_of_shows hshows, hf, h'.checkSockets]

/-- Where `tail_sock` is when the node of `f` has been taken out from behind that of `e`. -/
theorem Holds.last_behind {e f y : Addr × Added} {fs : List (Addr × Added)}
    (h : Holds l (es ++ e :: f :: fs)) (hy : y ∈ (es ++ e :: fs).getLast?) :
    (if l.tail_sock = some f.1 then some e.1 else l.tail_sock) = some y.1 := by
  cases fs with
  | nil =>
    obtain rfl : e = y := by simpa using hy
    rw [if_pos (h.last f (by simp))]
  | cons g gs =>
    rw [List.getLast?_append_cons, List.getLast?_cons_cons] at hy
    have htail : l.tail_sock = some y.1 := by
      refine h.last y ?_
      rwa [List.getLast?_append_cons, List.getLast?_cons_cons, List.getLast?_cons_cons]
    -- the last node is behind the one that goes
    have hne : y.1 ≠ f.1 := by
      intro heq
      have hnodup := h.chain.nodup
      rw [List.map_append, List.map_cons, List.map_cons] at hnodup
      have hf := (List.nodup_cons.1 (List.nodup_cons.1 (List.Nodup.of_append_right hnodup)).2).1
      exact hf (heq ▸ List.mem_map_of_mem (List.mem_of_mem_getLast? hy))
    rw [htail, if_neg (by simpa using hne)]

/-- **A node behind another is taken out**, which may be the last. -/
theorem Holds.delete_behind {e f : Addr × Added} {fs : List (Addr × Added)}
    (h : Holds l (es ++ e :: f :: fs)) {name : CStr} (hes : ∀ x ∈ es ++ [e], Named name x.2 = false)
    (hf : Named name f.2 = true) :
    ∃ l', l.socketBoxDelete name = some (IS_OK, l') ∧ Holds l' (es ++ e :: fs) ∧ l'.boxes = l.boxes := by
  -- the first node does not have the name
  obtain ⟨x, hx, hxes⟩ : ∃ x, (es ++ e :: f :: fs).head? = some x ∧ x ∈ es ++ [e] := by
    cases es <;> simp
  have hhead : l.head_sock = some x.1 := by rw [h.chain.head_eq, hx]; rfl
  obtain ⟨c₀, hc₀, hshows⟩ := h.chain.cell (List.mem_of_mem_head? hx)
  have hbefore : preceding l.nodes (fun node => strcmpZero name node.name) x.1 = some (some e.1) :=
    (hhead ▸ h.chain).preceding_eq (fun _ _ _ hs => strcmpZero_of_shows hs name) hes hf
  obtain ⟨c, d, hc, hnext, hd, hchain⟩ := h.chain.unlink
  have h' : Holds { l with
      tail_sock := if l.tail_sock = some f.1 then some e.1 else l.tail_sock
      nodes := (l.nodes.insert e.1 { c with next := d.next }).erase f.1 } (es ++ e :: fs) := by
    refine ⟨hchain, fun y hy => h.last_behind hy, fun y hy => h.kept y ?_⟩
    simp only [List.mem_append, List.mem_cons] at hy ⊢
    tauto
  refine ⟨_, ?_, h', rfl⟩
  have hcheck := h'.checkSockets
  simp only [hhead] at hcheck ⊢
  simp [socketBoxDelete, hhead, hc₀, strcmpZero_of_shows hshows, hes x hxes, hbefore, hc, hnext, hd, hcheck]

/-- **`socketBoxDelete`** takes out the first entry of a name that is there. -/
theorem Holds.delete (h : Holds l es) {name : CStr} (hname : ∃ e ∈ es, Named name e.2) :
    ∃ l', l.socketBoxDelete name = some (IS_OK, l') ∧
      Holds l' (es.eraseP fun e => Named name e.2) ∧ l'.boxes = l.boxes := by
  obtain ⟨e, he, hnamed⟩ := hname
  obtain ⟨f, es, fs, hes, hf, rfl, herase⟩ := List.exists_of_eraseP (p := fun e => Named name e.2) he hnamed
  rw [herase]
  rcases List.eq_nil_or_concat es with rfl | ⟨es, e, rfl⟩
  · exact h.delete_first hf
  · rw [List.concat_eq_append] at hes
    simp only [List.concat_eq_append, List.append_assoc, List.singleton_append] at h ⊢
    exact h.delete_behind (fun x hx => by simpa using hes x hx) hf

/-! ## Runs -/

/-- The entries after an operation: an addition puts one at the end, and a deletion takes out
the first of the name. -/
def entriesAfter (es : List (Addr × Added)) : BoxOp → List (Addr × Added)
  | .add newbox name _ (some block) => es ++ [(block.addr, ⟨name.1, newbox⟩)]
  | .delete name => es.eraseP fun e => Named name e.2
  | _ => es

/-- **The condition on an operation**: there is memory for a node, the box that is added is there,
names fit their field (and the array that one is copied to is no smaller), and a name is deleted
that `socketBoxFind` finds. -/
def Allowed (l : BoxList) : BoxOp → Prop
  | .add newbox name _ block =>
    newbox ∈ l.boxes ∧ name.1.length < nameSize ∧ ∃ b, block = some b ∧ b.addr ∉ l.nodes
  | .findAddress _ name => nameSize ≤ name.length
  | .delete name => ∃ node, l.socketBoxFind name = some (some node)
  | _ => True

theorem Holds.run (h : Holds l es) {e : BoxOp} (hallowed : Allowed l e) :
    ∃ l', l.run e = some l' ∧ Holds l' (entriesAfter es e) := by
  cases e with
  | calloc newbox s =>
    exact ⟨_, rfl, h.chain, h.last, fun x hx => ⟨Finmap.mem_insert.2 (Or.inr (h.kept x hx).1), (h.kept x hx).2⟩⟩
  | add newbox name callback block =>
    obtain ⟨hbox, hname, b, rfl, hfresh⟩ := hallowed
    obtain ⟨l', hadd, h', -⟩ := h.add callback hbox hname hfresh
    exact ⟨l', by rw [BoxList.run, hadd]; rfl, h'⟩
  | find name => exact ⟨l, by rw [BoxList.run, h.find]; rfl, h⟩
  | findAddress s name =>
    refine ⟨l, ?_, h⟩
    cases he : es.find? (fun e => l.HasSocket s e.2) with
    | none => rw [BoxList.run, h.findAddress_of_none he]; rfl
    | some e =>
      have hfit := (h.kept e (List.mem_of_find?_eq_some he)).2
      obtain ⟨copied, hcopied, -⟩ := h.findAddress he (hfit.trans_le hallowed)
      rw [BoxList.run, hcopied]
      rfl
  | delete name =>
    obtain ⟨node, hnode⟩ := hallowed
    rw [h.find, Option.some.injEq, Option.map_eq_some_iff] at hnode
    obtain ⟨e, he, -⟩ := hnode
    obtain ⟨l', hdelete, h', -⟩ := h.delete ⟨e, List.mem_of_find?_eq_some he,
      List.find?_some (p := fun e : Addr × Added => Named name e.2) he⟩
    exact ⟨l', by rw [BoxList.run, hdelete]; rfl, h'⟩

/-- **An ordered map.** -/
structure OrderedMap (l : BoxList) (es : List (Addr × Added)) : Prop where
  /-- What is reachable from `head_sock` are the entries, in their order. -/
  reachable : Chain l.nodes Shows l.head_sock es none
  /-- The last of them is the node of `tail_sock`. -/
  last : ∀ e ∈ es.getLast?, l.tail_sock = some e.1
  /-- The first entry of a name is found, or `NULL`. -/
  find : ∀ name, l.socketBoxFind name = some ((es.find? fun e => Named name e.2).map Prod.fst)
  /-- The name of the first entry with a socket is copied. -/
  findAddress : ∀ s name, nameSize ≤ name.length → match es.find? fun e => l.HasSocket s e.2 with
    | some e => ∃ copied, l.socketFindAddress s name = some (IS_OK, copied) ∧ read nul copied = .ok e.2.name
    | none => l.socketFindAddress s name = some (NOT_OK, name)
  /-- The first entry of a name that is there is deleted, and no other. -/
  delete : ∀ name, (∃ e ∈ es, Named name e.2) → ∃ l', l.socketBoxDelete name = some (IS_OK, l') ∧
    Chain l'.nodes Shows l'.head_sock (es.eraseP fun e => Named name e.2) none

theorem Holds.orderedMap (h : Holds l es) : OrderedMap l es := by
  refine ⟨h.chain, h.last, h.find, fun s name hsize => ?_, fun name hname => ?_⟩
  · cases he : es.find? (fun e => l.HasSocket s e.2) with
    | none => exact h.findAddress_of_none he name
    | some e => exact h.findAddress he ((h.kept e (List.mem_of_find?_eq_some he)).2.trans_le hsize)
  · obtain ⟨l', hdelete, h', -⟩ := h.delete hname
    exact ⟨l', hdelete, h'.chain⟩

/-- **In every run of allowed operations** the list is an ordered map of the entries that have
been added and not deleted. -/
theorem orderedMap_run {ops : List BoxOp}
    (h : Runs.Along step (fun l e => ∀ l' ∈ l, Allowed l' e) (some {}) ops) :
    ∃ l, ops.foldl step (some {}) = some l ∧ OrderedMap l (ops.foldl entriesAfter []) := by
  obtain ⟨l, hl, hholds⟩ := Runs.simulation (S := fun s es => ∃ l, s = some l ∧ Holds l es)
    (g := entriesAfter) (fun s es e ⟨l, hs, hl⟩ he => by
      subst hs
      exact hl.run (he l rfl)) ops _ _ ⟨_, rfl, holds_nil⟩ h
  exact ⟨l, hl, hholds.orderedMap⟩

/-- A block at this address. -/
def blockAt (addr : Addr) : Block := ⟨addr, ⟨⟨List.replicate nameSize nul, 0⟩, none⟩, by simp [nameSize]⟩

/-- Two sockets; the second is closed, and another is opened. -/
def reopened : List BoxOp :=
  [.calloc 1 7, .add 1 ⟨['a'], by decide⟩ none (some (blockAt 10)),
    .calloc 2 8, .add 2 ⟨['b'], by decide⟩ none (some (blockAt 11)), .delete ⟨['b'], by decide⟩,
    .calloc 3 9, .add 3 ⟨['c'], by decide⟩ none (some (blockAt 11))]

theorem orderedMap_reopened : ∃ l, reopened.foldl step (some {}) = some l ∧
    OrderedMap l [(10, ⟨['a'], 1⟩), (11, ⟨['c'], 3⟩)] := by
  have h : Runs.Along step (fun l e => ∀ l' ∈ l, Allowed l' e) (some {}) reopened := by
    refine ⟨?_, ?_, ?_, ?_, ?_, ?_, ?_, trivial⟩
    all_goals
      intro l hl
      obtain rfl := Option.some.inj hl
    · trivial
    · exact ⟨by decide, by decide, _, rfl, by decide⟩
    · trivial
    · exact ⟨by decide, by decide, _, rfl, by decide⟩
    · exact ⟨11, by decide⟩
    · trivial
    · exact ⟨by decide, by decide, _, rfl, by decide⟩
  exact orderedMap_run h

/-! ## The list of the adapter -/

/-- What an entry is to the adapter. -/
def toSocketBox (l : BoxList) (e : Added) : SocketBox := ⟨e.name, (l.socketOf e).getD 0⟩

/-- What the callers read behind a pointer that `socketBoxFind` returns: `pos->name` and
`pos->socbox->s`. -/
def deref (l : BoxList) (pos : Addr) : Option SocketBox := do
  let c : Cell Addr BoxNode ← l.nodes.lookup pos
  let name ← (read nul c.value.name).toOption
  let box : Box ← l.boxes.lookup c.value.socbox
  return ⟨name, box.s⟩

/-- **The list in memory stands for the list of the adapter.** -/
def Refines (l : BoxList) (a : Adapter) : Prop :=
  a.Tailed ∧ ∃ es, Holds l es ∧ a.sockets = es.map fun e => l.toSocketBox e.2

variable {a : Adapter}

theorem refines_start : Refines {} {} := ⟨fun hne => absurd rfl hne, [], holds_nil, rfl⟩

/-- **Each operation** does to the one what it does to the other. -/
theorem Refines.add (h : Refines l a) {newbox s : Addr} {name : CStr} (callback : Option Addr) {block : Block}
    (hbox : (l.boxes.lookup newbox).map Box.s = some s) (hname : name.1.length < nameSize)
    (hfresh : block.addr ∉ l.nodes) : ∃ l' a', l.socketBoxAdd newbox name callback (some block) = some (0, l') ∧
      a.socketBoxAdd name.1 s true = some (0, a') ∧ Refines l' a' := by
  obtain ⟨htailed, es, hholds, hsockets⟩ := h
  obtain ⟨box, hb, -⟩ := Option.map_eq_some_iff.1 hbox
  obtain ⟨l', hadd, hholds', hsocket⟩ := hholds.add callback (Finmap.mem_of_lookup_eq_some hb) hname hfresh
  refine ⟨l', _, hadd, htailed.add name.1 s, fun _ => rfl, _, hholds', ?_⟩
  simp only [hsockets, List.map_append, List.map_singleton, toSocketBox, hsocket]
  rw [socketOf, hbox]
  rfl

/-- Without memory both answer -1. -/
theorem Refines.add_none (h : Refines l a) {newbox : Addr} {s : ℕ} {name : CStr} (callback : Option Addr)
    (hbox : newbox ∈ l.boxes) : (l.socketBoxAdd newbox name callback none).map Prod.fst = some (-1) ∧
      (a.socketBoxAdd name.1 s false).map Prod.fst = some (-1) := by
  obtain ⟨htailed, es, hholds, -⟩ := h
  obtain ⟨box, hb⟩ := Finmap.mem_iff.1 hbox
  obtain ⟨tail, hadd⟩ := htailed.add_none name.1 s
  refine ⟨?_, by rw [hadd]; rfl⟩
  rcases List.eq_nil_or_concat es with rfl | ⟨es, e, rfl⟩
  · have hhead : l.head_sock = none := hholds.chain
    simp [socketBoxAdd, hb, hhead, malloc]
  · rw [List.concat_eq_append] at hholds
    obtain ⟨head, hhead⟩ : ∃ head, l.head_sock = some head := by
      rw [hholds.chain.head_eq]
      cases es <;> exact ⟨_, rfl⟩
    obtain ⟨c, hc, -⟩ := hholds.chain.cell (List.mem_append_right es (List.mem_singleton_self e))
    have htail : l.tail_sock = some e.1 := hholds.last e (by simp)
    simp [socketBoxAdd, hb, hhead, htail, hc, malloc]

theorem Refines.delete (h : Refines l a) {name : CStr} (hname : (a.socketBoxFind name.1).isSome = true) :
    ∃ l', l.socketBoxDelete name = some (IS_OK, l') ∧ Refines l' (a.socketBoxDelete name.1) := by
  obtain ⟨htailed, es, hholds, hsockets⟩ := h
  rw [Adapter.socketBoxFind, hsockets, List.find?_map, Option.isSome_map, List.find?_isSome] at hname
  obtain ⟨l', hdelete, hholds', hboxes⟩ := hholds.delete hname
  refine ⟨l', hdelete, htailed.delete name.1, _, hholds', ?_⟩
  have hsocket : l'.toSocketBox = l.toSocketBox := by
    unfold toSocketBox socketOf
    rw [hboxes]
  rw [Adapter.socketBoxDelete, hsockets, List.eraseP_map, hsocket]
  rfl

/-- The node of an entry is read as what the entry is to the adapter. -/
theorem Holds.deref (h : Holds l es) {e : Addr × Added} (he : e ∈ es) :
    l.deref e.1 = some (l.toSocketBox e.2) := by
  obtain ⟨c, hc, hname, hsocbox⟩ := h.chain.cell he
  obtain ⟨box, hbox⟩ := Finmap.mem_iff.1 (h.kept e he).1
  have hnode : l.boxes.lookup c.value.socbox = some box := by rw [hsocbox, hbox]
  simp [BoxList.deref, hc, hname, hnode, Except.toOption, toSocketBox, socketOf, hbox]

theorem Refines.find (h : Refines l a) (name : CStr) : ∃ pos, l.socketBoxFind name = some pos ∧
    a.socketBoxFind name.1 = pos.bind l.deref := by
  obtain ⟨-, es, hholds, hsockets⟩ := h
  refine ⟨_, hholds.find name, ?_⟩
  rw [Adapter.socketBoxFind, hsockets, List.find?_map,
    show ((fun box : SocketBox => decide (box.name = name.1)) ∘ fun e : Addr × Added => l.toSocketBox e.2) =
      fun e => Named name e.2 from rfl]
  cases he : es.find? (fun e => Named name e.2) with
  | none => rfl
  | some e => exact (hholds.deref (List.mem_of_find?_eq_some he)).symm

/-- The array is empty when `dummy_wakeup_callback` passes it. -/
theorem Refines.findAddress (h : Refines l a) (s : Addr) {name : Bytes} (hsize : nameSize ≤ name.length)
    (hempty : read nul name = .ok []) : ∃ code copied, l.socketFindAddress s name = some (code, copied) ∧
      read nul copied = .ok (a.socketFindAddress s) := by
  obtain ⟨-, es, hholds, hsockets⟩ := h
  have hfind : es.find? ((fun box : SocketBox => decide (box.s = s)) ∘ fun e => l.toSocketBox e.2) =
      es.find? fun e => l.HasSocket s e.2 := by
    refine List.find?_congr fun e he => ?_
    obtain ⟨box, hbox⟩ := Finmap.mem_iff.1 (hholds.kept e he).1
    simp [toSocketBox, HasSocket, socketOf, hbox]
  rw [Adapter.socketFindAddress, hsockets, List.find?_map, hfind]
  cases he : es.find? (fun e => l.HasSocket s e.2) with
  | none => exact ⟨_, _, hholds.findAddress_of_none he name, hempty⟩
  | some e =>
    obtain ⟨copied, hcopied, hread⟩ :=
      hholds.findAddress he ((hholds.kept e (List.mem_of_find?_eq_some he)).2.trans_le hsize)
    exact ⟨_, _, hcopied, hread⟩

end BoxList

end Vdetelweb
