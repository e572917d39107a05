import Vdetelweb.Proof.Lists

/-!
# What an operation on a named list does

Each operation is the generic one at the variables of its list (`run_of_generic`,
`generic_of_run`), apart from `mdnsrAdd` behind the first node. The functions of the sockets do
more to what only they have: the boxes, the walk along the list, and the tail when a node goes.

`Effect` lists the ways in which an operation goes, and `Entries.effect` says that an operation
on a list in order goes in one of them.
-/

namespace Vdetelweb

open BoxList CString Linked

namespace Lists

variable {x y : ListName} {g g' : Lists} {es : List (Addr × Added)} {op : ListOp} {r : ℤ}

/-! ## The generic operation -/

/-- The list whose tail is assigned with the first node. -/
def firstTail : ListName → ListName
  | .mreqsrc => .mreq
  | x => x

/-- The list whose head is assigned when the first node goes. -/
def firstHead : ListName → ListName
  | .tftps => .kvv
  | x => x

/-- The generic function, at the variables of the list. -/
def generic (x : ListName) (g : Lists) : ListOp → Option (ℤ × Lists)
  | .add item name _ block => g.add x (firstTail x) item name block
  | .delete name => g.delete x (firstHead x) name

/-- The two states differ at most in what the sockets have of their own: boxes, and a tail that
moves. -/
structure Matches (x : ListName) (g g' : Lists) : Prop where
  nodes : g'.nodes = g.nodes
  head : g'.head = g.head
  tail : ∀ y ≠ x, g'.tail y = g.tail y
  boxes : x ≠ .sock → g'.boxes = g.boxes

theorem Matches.refl (x : ListName) (g : Lists) : Matches x g g := ⟨rfl, rfl, fun _ _ => rfl, fun _ => rfl⟩

theorem Matches.entries_iff (h : Matches x g g') : g'.Entries y es ↔ g.Entries y es := by
  rw [Entries, Entries, h.nodes, h.head]

/-- The functions that are the generic ones. -/
theorem run_eq_generic (hsock : x ≠ .sock) (hmdnsr : x = .mdnsr → g.head x = none ∨ ∃ name, op = .delete name) :
    x.run op g = generic x g op := by
  cases op with
  | delete name => cases x <;> first | rfl | exact absurd rfl hsock
  | add item name callback block =>
    by_cases hx : x = .mdnsr
    · subst hx
      have hhead : g.head .mdnsr = none := by simpa using hmdnsr rfl
      simp [ListName.run, mdnsrAdd, generic, add, firstTail, hhead]
    · cases x <;> first | rfl | exact absurd rfl hsock | exact absurd rfl hx

/-! ## The list of sockets -/

/-- The box of a new node is written to. -/
def setCallback (g : Lists) (item : Addr) (box : Box) (callback : Option Addr) : Lists :=
  { g with boxes := g.boxes.insert item { box with callback } }

section

variable {item : Addr} {name : CStr} {callback : Option Addr} {b : Block}

theorem update_head_sock {head : Option Addr} (hhead : g.head .sock = head) :
    Function.update g.head .sock head = g.head := by
  rw [← hhead, Function.update_eq_self]

theorem sock_add_null : ListName.sock.run (.add item name callback none) g =
    (g.boxes.lookup item).bind fun _ => g.add .sock .sock item name none := by
  cases hbox : g.boxes.lookup item with
  | none => simp [ListName.run, socketBoxAdd, boxList, hbox]
  | some box =>
    cases hhead : g.head .sock with
    | none =>
      simp [ListName.run, socketBoxAdd, boxList, hbox, hhead, add, addFirst, BoxList.malloc, malloc,
        putBoxList, setTail, setHead]
    | some head =>
      cases hk : g.tail .sock with
      | none => simp [ListName.run, socketBoxAdd, boxList, hbox, hhead, hk, add, addBehind]
      | some k =>
        cases hc : g.nodes.lookup k with
        | none => simp [ListName.run, socketBoxAdd, boxList, hbox, hhead, hk, hc, add, addBehind]
        | some c =>
          simp [ListName.run, socketBoxAdd, boxList, hbox, hhead, hk, hc, add, addBehind, BoxList.malloc,
            malloc, putBoxList, setHead, setTail, write, update_head_sock hhead]

/-- **`socketBoxAdd`** is the generic function, then the box, then the walk. -/
theorem sock_add : ListName.sock.run (.add item name callback (some b)) g =
    (g.boxes.lookup item).bind fun box => (g.add .sock .sock item name (some b)).bind fun s =>
      (s.2.setCallback item box callback).boxList.checkSockets.map fun _ =>
        (s.1, s.2.setCallback item box callback) := by
  cases hbox : g.boxes.lookup item with
  | none => simp [ListName.run, socketBoxAdd, boxList, hbox]
  | some box =>
    cases hhead : g.head .sock with
    | none =>
      cases hfield : strcpy nul b.cell.value.name name.1 with
      | error e =>
        simp [ListName.run, socketBoxAdd, boxList, hbox, hhead, add, addFirst, BoxList.malloc, malloc,
          BoxList.fill, fill, hfield, Except.toOption]
      | ok field =>
        simp [ListName.run, socketBoxAdd, boxList, hbox, hhead, add, addFirst, BoxList.malloc, malloc,
          BoxList.fill, fill, hfield, Except.toOption, setHead, write, setTail, setCallback, putBoxList,
          Option.map_eq_bind, Option.bind_assoc]
    | some head =>
      cases hk : g.tail .sock with
      | none => simp [ListName.run, socketBoxAdd, boxList, hbox, hhead, hk, add, addBehind]
      | some k =>
        cases hc : g.nodes.lookup k with
        | none => simp [ListName.run, socketBoxAdd, boxList, hbox, hhead, hk, hc, add, addBehind]
        | some c =>
          simp [ListName.run, socketBoxAdd, boxList, hbox, hhead, hk, hc, add, addBehind, BoxList.malloc, malloc,
            BoxList.fill, fill, setHead, write, setTail, setCallback, putBoxList, update_head_sock hhead,
            Option.map_eq_bind, Option.bind_assoc]

/-- The walk, and a tail that may have moved. -/
def walked (tail : Option Addr) (s : ℤ × Lists) : Option (ℤ × Lists) :=
  s.2.boxList.checkSockets.map fun _ => (s.1, s.2.setTail .sock tail)

/-- The first node has the name. -/
theorem sock_delete_first {k : Addr} {c : Cell Addr BoxNode} (hhead : g.head .sock = some k)
    (hc : g.nodes.lookup k = some c) (hcmp : strcmpZero name c.value.name = some true) :
    ListName.sock.run (.delete name) g = (g.delete .sock .sock name).bind (walked (g.tail .sock)) := by
  simp [ListName.run, socketBoxDelete, boxList, hhead, hc, hcmp, delete, walked, Option.map_eq_bind,
    Option.bind_assoc, BoxList.checkSockets, putBoxList, setHead, setTail, free]

/-- The loop stops before the node that has the name, or at the end. -/
theorem sock_delete_behind {k : Addr} {c : Cell Addr BoxNode} {before : Option Addr}
    (hhead : g.head .sock = some k) (hc : g.nodes.lookup k = some c)
    (hcmp : strcmpZero name c.value.name = some false)
    (hbefore : preceding g.nodes (fun node => strcmpZero name node.name) k = some before) : ∃ tail,
    ListName.sock.run (.delete name) g = (g.delete .sock .sock name).bind (walked tail) := by
  cases before with
  | none =>
    refine ⟨g.tail .sock, ?_⟩
    simp [ListName.run, socketBoxDelete, boxList, hhead, hc, hcmp, hbefore, delete, walked, Option.map_eq_bind,
      Option.bind_assoc, BoxList.checkSockets, putBoxList, setHead, setTail, update_head_sock hhead]
  | some j =>
    cases hd : g.nodes.lookup j with
    | none =>
      refine ⟨none, ?_⟩
      simp [ListName.run, socketBoxDelete, boxList, hhead, hc, hcmp, hbefore, hd, delete]
    | some d =>
      -- `tail_sock` goes back to the node before, if it pointed to the one that goes
      refine ⟨if g.tail .sock = d.next then some j else g.tail .sock, ?_⟩
      simp [ListName.run, socketBoxDelete, boxList, hhead, hc, hcmp, hbefore, hd, delete, walked,
        Option.map_eq_bind, Option.bind_assoc, BoxList.checkSockets, putBoxList, setHead, setTail,
        update_head_sock hhead, free, write]

/-- **`socketBoxDelete`** is the generic function, with a tail that may move, then the walk. -/
theorem sock_delete (g : Lists) (name : CStr) : ∃ tail,
    ListName.sock.run (.delete name) g = (g.delete .sock .sock name).bind (walked tail) := by
  cases hhead : g.head .sock with
  | none => exact ⟨none, by simp [ListName.run, socketBoxDelete, boxList, hhead, delete]⟩
  | some k =>
    cases hc : g.nodes.lookup k with
    | none => exact ⟨none, by simp [ListName.run, socketBoxDelete, boxList, hhead, hc, delete]⟩
    | some c =>
      cases hcmp : strcmpZero name c.value.name with
      | none => exact ⟨none, by simp [ListName.run, socketBoxDelete, boxList, hhead, hc, hcmp, delete]⟩
      | some found =>
        cases found with
        | true => exact ⟨g.tail .sock, sock_delete_first hhead hc hcmp⟩
        | false =>
          cases hbefore : preceding g.nodes (fun node => strcmpZero name node.name) k with
          | none =>
            refine ⟨none, ?_⟩
            simp [ListName.run, socketBoxDelete, boxList, hhead, hc, hcmp, hbefore, delete]
          | some before => exact sock_delete_behind hhead hc hcmp hbefore

end

/-! ## Each operation is the generic one -/

/-- The box that is added to the sockets is there. -/
def Boxed (x : ListName) (g : Lists) : ListOp → Prop
  | .add item _ _ _ => x = .sock → item ∈ g.boxes
  | .delete _ => True

theorem Matches.setTail (g : Lists) (p : Option Addr) : Matches .sock g (g.setTail .sock p) :=
  ⟨rfl, rfl, fun _ hy => setTail_tail_ne hy p, fun hne => absurd rfl hne⟩

theorem Matches.setCallback (g : Lists) (item : Addr) (box : Box) (callback : Option Addr) :
    Matches .sock g (g.setCallback item box callback) :=
  ⟨rfl, rfl, fun _ _ => rfl, fun hne => absurd rfl hne⟩

theorem checkSockets_of_entries (hes : g.Entries .sock es) : g.boxList.checkSockets = some () :=
  checkSockets_of_chain hes

/-- **The generic operation** is what is done, if the walk along the sockets comes to the end. -/
theorem run_of_generic (hmdnsr : x = .mdnsr → g.head x = none ∨ ∃ name, op = .delete name)
    (hbox : Boxed x g op) (hrun : generic x g op = some (r, g')) (hes : ∃ es, x = .sock → g'.Entries x es) :
    ∃ g'', x.run op g = some (r, g'') ∧ Matches x g' g'' := by
  by_cases hsock : x = .sock
  · subst hsock
    obtain ⟨es, hes⟩ := hes
    have hcheck := checkSockets_of_entries (hes rfl)
    cases op with
    | add item name callback block =>
      obtain ⟨box, hb⟩ := Finmap.mem_iff.1 (hbox rfl)
      have hadd : g.add .sock .sock item name block = some (r, g') := hrun
      cases block with
      | none => exact ⟨g', by rw [sock_add_null, hb, Option.bind_some, hadd], .refl _ _⟩
      | some b =>
        refine ⟨_, ?_, .setCallback g' item box callback⟩
        have hcheck' : (g'.setCallback item box callback).boxList.checkSockets = some () := hcheck
        rw [sock_add, hb, Option.bind_some, hadd, Option.bind_some, hcheck']
        rfl
    | delete name =>
      have hdelete : g.delete .sock .sock name = some (r, g') := hrun
      obtain ⟨tail, heq⟩ := sock_delete g name
      refine ⟨_, ?_, .setTail g' tail⟩
      rw [heq, hdelete, Option.bind_some, walked, hcheck]
      rfl
  · exact ⟨g', by rw [run_eq_generic hsock hmdnsr, hrun], .refl _ _⟩

/-- **What is done** is the generic operation. -/
theorem generic_of_run (hmdnsr : x = .mdnsr → g.head x = none ∨ ∃ name, op = .delete name)
    (hrun : x.run op g = some (r, g')) :
    Boxed x g op ∧ ∃ g'', generic x g op = some (r, g'') ∧ Matches x g'' g' := by
  by_cases hsock : x = .sock
  · subst hsock
    cases op with
    | add item name callback block =>
      cases block with
      | none =>
        rw [sock_add_null, Option.bind_eq_some_iff] at hrun
        obtain ⟨box, hb, hadd⟩ := hrun
        exact ⟨fun _ => Finmap.mem_of_lookup_eq_some hb, g', hadd, .refl _ _⟩
      | some b =>
        rw [sock_add, Option.bind_eq_some_iff] at hrun
        obtain ⟨box, hb, hrun⟩ := hrun
        obtain ⟨s, hadd, hrun⟩ := Option.bind_eq_some_iff.1 hrun
        obtain ⟨-, -, heq⟩ := Option.map_eq_some_iff.1 hrun
        cases heq
        exact ⟨fun _ => Finmap.mem_of_lookup_eq_some hb, s.2, hadd, .setCallback ..⟩
    | delete name =>
      obtain ⟨tail, heq⟩ := sock_delete g name
      rw [heq, Option.bind_eq_some_iff] at hrun
      obtain ⟨s, hdelete, hrun⟩ := hrun
      obtain ⟨-, -, heq⟩ := Option.map_eq_some_iff.1 hrun
      cases heq
      exact ⟨trivial, s.2, hdelete, .setTail ..⟩
  · rw [run_eq_generic hsock hmdnsr] at hrun
    refine ⟨?_, g', hrun, .refl _ _⟩
    cases op with
    | add item name callback block => exact fun heq => absurd heq hsock
    | delete name => trivial

/-! ## What an operation does to the memory -/

/-- `malloc` hands out what is not in use. -/
def Fresh (g : Lists) : ListOp → Prop
  | .add _ _ _ block => ∀ b ∈ block, b.addr ∉ g.nodes
  | .delete _ => True

/-- **The condition on the list itself**: what is added has room, `tail_x` points to the last node
if it is used, and a name is deleted from a list that is not empty. -/
def Works (x : ListName) (g : Lists) (es : List (Addr × Added)) : ListOp → Prop
  | .add item name _ block => (x = .sock → item ∈ g.boxes) ∧ (block ≠ none → name.1.length < nameSize) ∧
    ∀ e ∈ es.getLast?, x ≠ .mdnsr ∧ g.tail x = some e.1
  | .delete _ => es ≠ []

/-- The entry that is added. -/
def newEntry (item : Addr) (name : CStr) (block : Option Block) : List (Addr × Added) :=
  (block.map fun b => (b.addr, ⟨name.1, item⟩)).toList

/-- The ways in which an operation goes, with what it returns and the state after it. -/
inductive Effect (x : ListName) (g : Lists) (es : List (Addr × Added)) : ListOp → ℤ → Lists → Prop
  | addFirstNull (item name callback) : es = [] → Effect x g es (.add item name callback none) (-1) g
  | addFirst (item name callback) (b : Block) (field) : es = [] → b.addr ∉ g.nodes → read nul field = .ok name.1 →
    Effect x g es (.add item name callback (some b)) 0 (g.started x (firstTail x) b.addr item field)
  | addBehindNull (item name callback) : es ≠ [] → Effect x g es (.add item name callback none) (-1) (g.setTail x none)
  | addBehind (item name callback) (b : Block) (field xs e c) : es = xs ++ [e] → b.addr ∉ g.nodes →
    g.nodes.lookup e.1 = some c → c.next = none → read nul field = .ok name.1 →
    Effect x g es (.add item name callback (some b)) 0 (g.appended x e.1 c b.addr item field)
  | absent (name) : es ≠ [] → (∀ e ∈ es, Named name e.2 = false) → Effect x g es (.delete name) (-1) g
  | first (name f fs) : es = f :: fs → Named name f.2 = true →
    Effect x g es (.delete name) IS_OK ((g.setHead (firstHead x) (fs.head?.map Prod.fst)).free f.1)
  | behind (name xs e f ys c d) : es = xs ++ e :: f :: ys → (∀ z ∈ xs ++ [e], Named name z.2 = false) →
    Named name f.2 = true → g.nodes.lookup e.1 = some c → c.next = some f.1 → g.nodes.lookup f.1 = some d →
    Effect x g es (.delete name) IS_OK ((g.write e.1 { c with next := d.next }).free f.1)

/-- The last cell. -/
theorem Entries.last_cell {e : Addr × Added} (hes : g.Entries x (es ++ [e])) :
    ∃ c, g.nodes.lookup e.1 = some c ∧ c.next = none := by
  obtain ⟨q, -, -, c, hc, -, hnext⟩ := chain_append.1 hes.chain
  exact ⟨c, hc, hnext⟩

theorem Entries.head_ne {e : Addr × Added} (hes : g.Entries x (es ++ [e])) : g.head x ≠ none := by
  rw [hes.head_eq]
  cases es <;> simp

/-- **An operation on a list that meets its condition.** -/
theorem Entries.effect (hes : g.Entries x es) (hfresh : Fresh g op) (hworks : Works x g es op) :
    ∃ r g', generic x g op = some (r, g') ∧ Effect x g es op r g' := by
  cases op with
  | add item name callback block =>
    obtain ⟨-, hname, htail⟩ := hworks
    rcases List.eq_nil_or_concat es with rfl | ⟨xs, e, rfl⟩
    · have hhead : g.head x = none := hes
      cases block with
      | none => exact ⟨_, _, add_first_null hhead, .addFirstNull _ _ _ rfl⟩
      | some b =>
        obtain ⟨field, hfield, hread⟩ := exists_field b (hname (by simp))
        exact ⟨_, _, add_first hhead hfield, .addFirst _ _ _ b field rfl (hfresh b rfl) hread⟩
    · rw [List.concat_eq_append] at hes htail ⊢
      obtain ⟨c, hc, hnext⟩ := hes.last_cell
      have hlast : g.tail x = some e.1 := (htail e (by simp)).2
      cases block with
      | none =>
        have hcell : { c with next := none } = c := by rw [← hnext]
        refine ⟨_, _, ?_, .addBehindNull _ _ _ (by simp)⟩
        rw [generic, add_behind_null hes.head_ne hlast hc, hcell, write_self hc]
      | some b =>
        obtain ⟨field, hfield, hread⟩ := exists_field b (hname (by simp))
        have hb : b.addr ∉ g.nodes := hfresh b rfl
        have hne : b.addr ≠ e.1 := ne_of_fresh hb hc
        exact ⟨_, _, add_behind hes.head_ne hlast hc hne hfield, .addBehind _ _ _ b field xs e c rfl hb hc hnext hread⟩
  | delete name =>
    by_cases hname : ∃ e ∈ es, Named name e.2
    · obtain ⟨e, he, hnamed⟩ := hname
      obtain ⟨f, xs, ys, hxs, hf, rfl, -⟩ := List.exists_of_eraseP (p := fun e => Named name e.2) he hnamed
      rcases List.eq_nil_or_concat xs with rfl | ⟨xs, e, rfl⟩
      · exact ⟨_, _, hes.delete_first hf, .first _ f ys rfl hf⟩
      · have heq : xs.concat e ++ f :: ys = xs ++ e :: f :: ys := by simp
        have habsent : ∀ z ∈ xs ++ [e], Named name z.2 = false := by
          intro z hz
          simpa using hxs z (by simpa using hz)
        rw [heq] at hes ⊢
        obtain ⟨c, d, hc, hnext, hd, hdelete⟩ := hes.delete_behind (h := firstHead x) habsent hf
        exact ⟨_, _, hdelete, .behind _ xs e f ys c d rfl habsent hf hc hnext hd⟩
    · have habsent : ∀ e ∈ es, Named name e.2 = false := absent_of_not hname
      exact ⟨_, _, hes.delete_absent hworks habsent, .absent _ hworks habsent⟩

/-- What is returned. -/
def code (es : List (Addr × Added)) : ListOp → ℤ
  | .add _ _ _ block => if block.isSome then 0 else -1
  | .delete name => if es.any fun e => Named name e.2 then IS_OK else -1

/-- The entries after an operation. -/
def after (es : List (Addr × Added)) : ListOp → List (Addr × Added)
  | .add item name _ block => es ++ newEntry item name block
  | .delete name => es.eraseP fun e => Named name e.2

/-- The first node goes, and `head_tftps` still points to it. -/
def LosesHead (x : ListName) (es : List (Addr × Added)) : ListOp → Prop
  | .add _ _ _ _ => False
  | .delete name => x = .tftps ∧ ∃ f ∈ es.head?, Named name f.2 = true

theorem firstHead_of_ne (hx : x ≠ .tftps) : firstHead x = x := by
  cases x <;> first | rfl | exact absurd rfl hx

theorem firstTail_of_ne (hx : x ≠ .mreqsrc) : firstTail x = x := by
  cases x <;> first | rfl | exact absurd rfl hx

/-- **The list itself** is as it should be afterwards, unless it loses its head. -/
theorem Effect.entries (heff : Effect x g es op r g') (hes : g.Entries x es) (hloses : ¬ LosesHead x es op) :
    g'.Entries x (after es op) := by
  cases heff with
  | addFirstNull item name callback hnil =>
    simpa [after, newEntry] using hes
  | addFirst item name callback b field hnil hfresh hread =>
    rw [hnil]
    exact entries_started item b.addr hread
  | addBehindNull item name callback hne =>
    have hafter : after es (.add item name callback none) = es := List.append_nil es
    rw [hafter]
    exact hes
  | addBehind item name callback b field xs e c heq hfresh hc hnext hread =>
    subst heq
    obtain ⟨c', hc', hentries⟩ := hes.appended hfresh item hread
    obtain rfl : c = c' := Option.some.inj (hc.symm.trans hc')
    exact hentries
  | absent name hne habsent =>
    have herase : es.eraseP (fun e => Named name e.2) = es := by
      apply List.eraseP_of_forall_not
      simpa using habsent
    rw [after, herase]
    exact hes
  | first name f fs heq hf =>
    subst heq
    have hx : x ≠ .tftps := fun hx => hloses ⟨hx, f, rfl, hf⟩
    have herase : (f :: fs).eraseP (fun e => Named name e.2) = fs := by simp [hf]
    rw [firstHead_of_ne hx, after, herase]
    exact hes.free_first
  | behind name xs e f ys c d heq habsent hf hc hnext hd =>
    subst heq
    have herase : (xs ++ e :: f :: ys).eraseP (fun e => Named name e.2) = xs ++ e :: ys := by
      have happend : xs ++ e :: f :: ys = (xs ++ [e]) ++ f :: ys := by simp
      have hfirst : (f :: ys).eraseP (fun e => Named name e.2) = ys := by simp [hf]
      rw [happend, List.eraseP_append_right _ (by simpa using habsent), hfirst, List.append_assoc,
        List.singleton_append]
    rw [after, herase]
    exact hes.free_behind hc hd

end Lists

end Vdetelweb
