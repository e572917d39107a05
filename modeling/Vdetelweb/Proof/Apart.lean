import Vdetelweb.Proof.Effects

/-!
# The named lists are apart

An operation on one list is to leave the others as they are, and to depend on none of them
(`Independent`). It does exactly if its list is in order, and the others are spared
(`independent_iff`): three functions use a variable of another list, and a node that two lists
have is changed for both.
-/

namespace Vdetelweb

open BoxList CString Linked

namespace Lists

variable {x y : ListName} {g g' : Lists} {es : List (Addr × Added)} {op : ListOp} {r : ℤ}

/-! ## The other lists -/

/-- **The other lists are unchanged**: what their variables are, and every node that they lead to. -/
structure Unchanged (x : ListName) (g g' : Lists) : Prop where
  head : ∀ y ≠ x, g'.head y = g.head y
  tail : ∀ y ≠ x, g'.tail y = g.tail y
  nodes : ∀ y ≠ x, ∀ k, Reaches g.nodes (g.head y) k → g'.nodes.lookup k = g.nodes.lookup k
  boxes : x ≠ .sock → g'.boxes = g.boxes

/-- **The condition on the other lists**: none of them has the node that the new one comes behind, or
the one that is deleted. `tail_mreq` already points to the first node that `mreqsrcAdd` adds, and
`head_kvv` to what comes after the first node that `tftpsDelete` frees. -/
def Spared (x : ListName) (g : Lists) (es : List (Addr × Added)) : ListOp → Prop
  | .add _ _ _ block => ∀ b ∈ block, (es = [] → x = .mreqsrc → g.tail .mreq = some b.addr) ∧
    ∀ e ∈ es.getLast?, ∀ y ≠ x, ¬ Reaches g.nodes (g.head y) e.1
  | .delete name => ∀ f ∈ es.find? fun e => Named name e.2, (∀ y ≠ x, ¬ Reaches g.nodes (g.head y) f.1) ∧
    (x = .tftps → es.head? = some f → g.head .kvv = es.tail.head?.map Prod.fst)

theorem Unchanged.refl (x : ListName) (g : Lists) : Unchanged x g g :=
  ⟨fun _ _ => rfl, fun _ _ => rfl, fun _ _ _ _ => rfl, fun _ => rfl⟩

/-- What the sockets have of their own does not matter to the others. -/
theorem Matches.unchanged_iff {g'' : Lists} (h : Matches x g' g'') : Unchanged x g g'' ↔ Unchanged x g g' := by
  obtain ⟨hnodes, hhead, htail, hboxes⟩ := h
  constructor
  · rintro ⟨h₁, h₂, h₃, h₄⟩
    refine ⟨fun y hy => ?_, fun y hy => ?_, fun y hy k hk => ?_, fun hx => ?_⟩
    · rw [← h₁ y hy, hhead]
    · rw [← h₂ y hy, htail y hy]
    · rw [← h₃ y hy k hk, hnodes]
    · rw [← h₄ hx, hboxes hx]
  · rintro ⟨h₁, h₂, h₃, h₄⟩
    refine ⟨fun y hy => ?_, fun y hy => ?_, fun y hy k hk => ?_, fun hx => ?_⟩
    · rw [hhead, h₁ y hy]
    · rw [htail y hy, h₂ y hy]
    · rw [hnodes, h₃ y hy k hk]
    · rw [hboxes hx, h₄ hx]

section

variable {item : Addr} {name : CStr} {e f : Addr × Added} {c d : Cell Addr BoxNode}

theorem unchanged_started (item : Addr) {k : Addr} (field : Bytes) (hfresh : k ∉ g.nodes) :
    Unchanged x g (g.started x (firstTail x) k item field) ↔ (x = .mreqsrc → g.tail .mreq = some k) := by
  constructor
  · rintro h rfl
    have htail := h.tail .mreq (by decide)
    rw [← htail]
    exact setTail_tail_self (x := .mreq) (some k)
  · intro hmreq
    refine ⟨fun y hy => setHead_head_ne hy _, fun y hy => ?_, fun y hy j hj => ?_, fun _ => rfl⟩
    · by_cases hx : x = .mreqsrc
      · subst hx
        by_cases hmr : y = .mreq
        · rw [hmr, hmreq rfl]
          exact setTail_tail_self (x := .mreq) (some k)
        · exact setTail_tail_ne hmr _
      · rw [firstTail_of_ne hx]
        exact setTail_tail_ne hy _
    · have hne : j ≠ k := fun heq => hfresh (heq ▸ hj.1)
      exact Finmap.lookup_insert_of_ne _ hne

theorem unchanged_appended (item : Addr) {k : Addr} (field : Bytes) (hfresh : k ∉ g.nodes)
    (hc : g.nodes.lookup e.1 = some c) (hnext : c.next = none) :
    Unchanged x g (g.appended x e.1 c k item field) ↔ ∀ y ≠ x, ¬ Reaches g.nodes (g.head y) e.1 := by
  have hek : e.1 ≠ k := (ne_of_fresh hfresh hc).symm
  constructor
  · intro h y hy hreach
    have hlookup : (g.appended x e.1 c k item field).nodes.lookup e.1 = some { c with next := some k } := by
      rw [appended, setTail_nodes, write_nodes, Finmap.lookup_insert_of_ne _ hek, write_nodes, Finmap.lookup_insert]
    have hcell := (hlookup.symm.trans (h.nodes y hy e.1 hreach)).trans hc
    have hsome : some k = c.next := congrArg Cell.next (Option.some.inj hcell)
    rw [hnext] at hsome
    cases hsome
  · intro hapart
    refine ⟨fun _ _ => rfl, fun y hy => setTail_tail_ne hy _, fun y hy j hj => ?_, fun _ => rfl⟩
    have hjk : j ≠ k := fun heq => hfresh (heq ▸ hj.1)
    have hje : j ≠ e.1 := fun heq => hapart y hy (heq ▸ hj)
    rw [appended, setTail_nodes, write_nodes, Finmap.lookup_insert_of_ne _ hjk, write_nodes,
      Finmap.lookup_insert_of_ne _ hje]

/-- A list that had the node has lost it. -/
theorem not_reaches_of_free (h : Unchanged x g g') {k : Addr} (hk : k ∉ g'.nodes) :
    ∀ y ≠ x, ¬ Reaches g.nodes (g.head y) k := by
  intro y hy hreach
  have hlookup := h.nodes y hy k hreach
  rw [Finmap.lookup_eq_none.2 hk] at hlookup
  exact Finmap.lookup_eq_none.1 hlookup.symm hreach.1

theorem unchanged_free_first (k : Addr) (next : Option Addr) :
    Unchanged x g ((g.setHead (firstHead x) next).free k) ↔
      (∀ y ≠ x, ¬ Reaches g.nodes (g.head y) k) ∧ (x = .tftps → g.head .kvv = next) := by
  constructor
  · intro h
    refine ⟨not_reaches_of_free h Finmap.notMem_erase_self, ?_⟩
    rintro rfl
    rw [← h.head .kvv (by decide)]
    exact setHead_head_self (g := g) (x := .kvv) next
  · rintro ⟨hapart, hkvv⟩
    refine ⟨fun y hy => ?_, fun _ _ => rfl, fun y hy j hj => ?_, fun _ => rfl⟩
    · by_cases hx : x = .tftps
      · subst hx
        by_cases hk : y = .kvv
        · rw [hk, hkvv rfl]
          exact setHead_head_self (g := g) (x := .kvv) next
        · exact setHead_head_ne hk _
      · rw [firstHead_of_ne hx]
        exact setHead_head_ne hy _
    · have hne : j ≠ k := fun heq => hapart y hy (heq ▸ hj)
      exact Finmap.lookup_erase_ne hne

theorem unchanged_free_behind (hc : g.nodes.lookup e.1 = some c) (hnext : c.next = some f.1)
    (hd : g.nodes.lookup f.1 = some d) :
    Unchanged x g ((g.write e.1 { c with next := d.next }).free f.1) ↔ ∀ y ≠ x, ¬ Reaches g.nodes (g.head y) f.1 := by
  constructor
  · intro h
    exact not_reaches_of_free h Finmap.notMem_erase_self
  · intro hapart
    refine ⟨fun _ _ => rfl, fun _ _ => rfl, fun y hy j hj => ?_, fun _ => rfl⟩
    have hjf : j ≠ f.1 := fun heq => hapart y hy (heq ▸ hj)
    -- a list that has the node before it has this one too
    have hje : j ≠ e.1 := by
      rintro rfl
      exact hapart y hy (hj.next hc hnext (Finmap.mem_of_lookup_eq_some hd))
    rw [free_nodes, Finmap.lookup_erase_ne hjf, write_nodes, Finmap.lookup_insert_of_ne _ hje]

end

/-- **An operation leaves the other lists as they are** exactly when they are spared. -/
theorem Effect.unchanged_iff (heff : Effect x g es op r g') : Unchanged x g g' ↔ Spared x g es op := by
  cases heff with
  | addFirstNull item name callback hnil =>
    have hspared : Spared x g es (.add item name callback none) := fun b hb => by cases hb
    exact ⟨fun _ => hspared, fun _ => .refl x g⟩
  | addFirst item name callback b field hnil hfresh hread =>
    subst hnil
    rw [unchanged_started item field hfresh]
    simp [Spared]
  | addBehindNull item name callback hne =>
    have hspared : Spared x g es (.add item name callback none) := fun b hb => by cases hb
    have hsame : Unchanged x g (g.setTail x none) :=
      ⟨fun _ _ => rfl, fun y hy => setTail_tail_ne hy _, fun _ _ _ _ => rfl, fun _ => rfl⟩
    exact ⟨fun _ => hspared, fun _ => hsame⟩
  | addBehind item name callback b field xs e c heq hfresh hc hnext hread =>
    subst heq
    rw [unchanged_appended item field hfresh hc hnext]
    simp [Spared]
  | absent name hne habsent =>
    have hfind : es.find? (fun e => Named name e.2) = none := by simpa using habsent
    have hspared : Spared x g es (.delete name) := by
      intro f hf
      rw [hfind] at hf
      cases hf
    exact ⟨fun _ => hspared, fun _ => .refl x g⟩
  | first name f fs heq hf =>
    subst heq
    rw [unchanged_free_first]
    simp [Spared, hf]
  | behind name xs e f ys c d heq habsent hf hc hnext hd =>
    subst heq
    have hfind : (xs ++ e :: f :: ys).find? (fun e => Named name e.2) = some f := by
      have happend : xs ++ e :: f :: ys = (xs ++ [e]) ++ f :: ys := by simp
      have hbefore : (xs ++ [e]).find? (fun e => Named name e.2) = none :=
        List.find?_eq_none.2 fun z hz => by simp [habsent z hz]
      rw [happend, List.find?_append, hbefore, Option.none_or, List.find?_cons, hf]
    have hfirst : (xs ++ e :: f :: ys).head? ≠ some f := by
      intro hhead
      rw [habsent f (mem_of_head?_append hhead)] at hf
      cases hf
    rw [unchanged_free_behind hc hnext hd]
    constructor
    · intro hapart z hz
      obtain rfl : f = z := Option.some.inj (hfind.symm.trans hz)
      exact ⟨hapart, fun _ hhead => absurd hhead hfirst⟩
    · intro hspared
      exact (hspared f hfind).1

/-! ## Independence -/

/-- The states have the same list `x`. -/
structure SameList (x : ListName) (g g' : Lists) : Prop where
  head : g'.head x = g.head x
  tail : g'.tail x = g.tail x
  entries : ∀ es, g.Entries x es → g'.Entries x es
  boxes : x = .sock → g'.boxes = g.boxes

/-- **An operation that is independent of the other lists**, with what it returns and the state
after it. -/
structure IndependentAfter (x : ListName) (op : ListOp) (g : Lists) (r : ℤ) (g' : Lists) : Prop where
  defined : x.run op g = some (r, g')
  /-- The other lists are as they were. -/
  others : Unchanged x g g'
  /-- What is added to a list that is not empty comes behind its last node. -/
  appends : ∀ es ≠ [], g.Entries x es → ∀ item name callback block, op = .add item name callback block →
    g'.Entries x (es ++ newEntry item name block)
  /-- What is returned, and the list afterwards, depend on the list only. -/
  own : ∀ h, SameList x g h → Fresh h op → ∃ h', x.run op h = some (r, h') ∧
    ∀ es, g'.Entries x es → h'.Entries x es

/-- **An operation is independent of the other lists.** -/
def Independent (x : ListName) (op : ListOp) (g : Lists) : Prop := ∃ r g', IndependentAfter x op g r g'

/-- **The condition**: the list and the others are in order. -/
structure Apart (x : ListName) (op : ListOp) (g : Lists) (es : List (Addr × Added)) : Prop where
  entries : g.Entries x es
  works : Works x g es op
  spared : Spared x g es op

theorem Works.mdnsr (hworks : Works x g es op) (hes : g.Entries x es) (hx : x = .mdnsr) :
    g.head x = none ∨ ∃ name, op = .delete name := by
  cases op with
  | delete name => exact Or.inr ⟨name, rfl⟩
  | add item name callback block =>
    left
    cases hlast : es.getLast? with
    | none =>
      rw [hes.head_eq, List.getLast?_eq_none_iff.1 hlast]
      rfl
    | some e => exact absurd hx (hworks.2.2 e hlast).1

theorem Works.boxed (hworks : Works x g es op) : Boxed x g op := by
  cases op with
  | delete name => trivial
  | add item name callback block => exact hworks.1

/-- **An operation that works** has one of the effects. -/
theorem Entries.run (hes : g.Entries x es) (hfresh : Fresh g op) (hworks : Works x g es op) :
    ∃ r g' g'', x.run op g = some (r, g'') ∧ Effect x g es op r g' ∧ Matches x g' g'' := by
  obtain ⟨r, g', hrun, heff⟩ := hes.effect hfresh hworks
  have hsock : ∃ fs, x = .sock → g'.Entries x fs := by
    refine ⟨after es op, fun hx => heff.entries hes fun hloses => ?_⟩
    cases op with
    | add item name callback block => exact hloses
    | delete name => exact absurd (hx.symm.trans hloses.1) (by decide)
  obtain ⟨g'', hrun', hmatches⟩ := run_of_generic (hworks.mdnsr hes) hworks.boxed hrun hsock
  exact ⟨r, g', g'', hrun', heff, hmatches⟩

theorem shows_unique : ∀ (node : BoxNode) (a b : Added), Shows node a → Shows node b → a = b := by
  rintro node ⟨n, s⟩ ⟨m, t⟩ ⟨hn, rfl⟩ ⟨hm, rfl⟩
  obtain rfl : n = m := Except.ok.inj (hn.symm.trans hm)
  rfl

theorem Entries.unique {fs : List (Addr × Added)} (hes : g.Entries x es) (hfs : g.Entries x fs) : es = fs :=
  Chain.eq_of_unique shows_unique hes hfs

theorem SameList.works {h : Lists} (hsame : SameList x g h) (hworks : Works x g es op) : Works x h es op := by
  cases op with
  | delete name => exact hworks
  | add item name callback block =>
    obtain ⟨hbox, hname, htail⟩ := hworks
    refine ⟨fun hx => ?_, hname, fun e he => ⟨(htail e he).1, ?_⟩⟩
    · rw [hsame.boxes hx]
      exact hbox hx
    · rw [hsame.tail]
      exact (htail e he).2

/-- No pointer is live. -/
theorem run_of_no_nodes (hmdnsr : x = .mdnsr → g.head x = none ∨ ∃ name, op = .delete name)
    (hhead : g.head x ≠ none) (hnodes : ∀ k, k ∉ g.nodes) : x.run op g = none := by
  rw [Option.eq_none_iff_forall_ne_some]
  rintro ⟨r, g'⟩ hrun
  obtain ⟨-, g'', hgeneric, -⟩ := generic_of_run hmdnsr hrun
  cases op with
  | add item name callback block =>
    have hadd : g.add x (firstTail x) item name block = none :=
      add_of_tail_not_live hhead fun k _ => hnodes k
    rw [generic, hadd] at hgeneric
    cases hgeneric
  | delete name =>
    obtain ⟨k, hk⟩ := Option.ne_none_iff_exists'.1 hhead
    simp [generic, delete, hk, Finmap.lookup_eq_none.2 (hnodes k)] at hgeneric

/-- `mdnsrAdd` reads `tail_kvv->next`. -/
theorem mdnsrAdd_of_null {item : Addr} {name : CStr} {block : Option Block} (hhead : g.head .mdnsr ≠ none)
    (hkvv : g.tail .kvv = none) : g.mdnsrAdd item name block = none := by
  obtain ⟨k, hk⟩ := Option.ne_none_iff_exists'.1 hhead
  cases htail : g.tail .mdnsr with
  | none => simp [mdnsrAdd, hk, htail]
  | some j =>
    cases hc : g.nodes.lookup j with
    | none => simp [mdnsrAdd, hk, htail, hc]
    | some c => cases block <;> simp [mdnsrAdd, hk, htail, malloc, hkvv]

theorem IndependentAfter.mdnsr (h : IndependentAfter x op g r g') (hfresh : Fresh g op) (hx : x = .mdnsr) :
    g.head x = none ∨ ∃ name, op = .delete name := by
  by_contra hno
  rw [not_or] at hno
  subst hx
  cases op with
  | delete name => exact hno.2 ⟨name, rfl⟩
  | add item name callback block =>
    have hsame : SameList .mdnsr g (g.setTail .kvv none) :=
      ⟨rfl, setTail_tail_ne (by decide) _, fun _ hes => hes, fun _ => rfl⟩
    obtain ⟨h', hrun, -⟩ := h.own _ hsame hfresh
    have hnone : (g.setTail .kvv none).mdnsrAdd item name block = none :=
      mdnsrAdd_of_null hno.1 (setTail_tail_self none)
    have hadd : (g.setTail .kvv none).mdnsrAdd item name block = some (r, h') := hrun
    rw [hnone] at hadd
    cases hadd

theorem IndependentAfter.exists_entries (h : IndependentAfter x op g r g') (hfresh : Fresh g op) :
    ∃ es, g.Entries x es := by
  by_contra hno
  have hhead : g.head x ≠ none := fun hnone => hno ⟨[], hnone⟩
  -- where nothing is live, the list is not there either
  set h₁ : Lists := { g with nodes := ∅ }
  have hsame : SameList x g h₁ := ⟨rfl, rfl, fun es hes => absurd ⟨es, hes⟩ hno, fun _ => rfl⟩
  have hfresh₁ : Fresh h₁ op := by
    cases op with
    | add item name callback block => exact fun b _ => Finmap.notMem_empty
    | delete name => trivial
  obtain ⟨h', hrun, -⟩ := h.own h₁ hsame hfresh₁
  have hnone : x.run op h₁ = none :=
    run_of_no_nodes (h.mdnsr hfresh) hhead fun k => Finmap.notMem_empty
  rw [hnone] at hrun
  cases hrun

/-- The link from a cell to the next. -/
theorem Entries.next {e f : Addr × Added} {fs : List (Addr × Added)} (hes : g.Entries x (es ++ e :: f :: fs)) :
    ∃ c, g.nodes.lookup e.1 = some c ∧ c.next = some f.1 := by
  obtain ⟨q, -, -, c, hc, -, hnext, -⟩ := chain_append.1 hes.chain
  exact ⟨c, hc, hnext⟩

/-- **`tail_x` points to the last node**, if what is added comes behind it. -/
theorem IndependentAfter.tail (h : IndependentAfter x op g r g') (hfresh : Fresh g op) {e : Addr × Added}
    (hes : g.Entries x (es ++ [e])) {item : Addr} {name : CStr} {callback : Option Addr} {block : Option Block}
    (hop : op = .add item name callback block) : g.tail x = some e.1 := by
  obtain ⟨-, g'', hgeneric, hmatches⟩ := generic_of_run (h.mdnsr hfresh) h.defined
  have happends : g''.Entries x (es ++ [e] ++ newEntry item name block) :=
    hmatches.entries_iff.1 (h.appends _ (by simp) hes _ _ _ _ hop)
  subst hop
  -- it points to a live node, since it is written through
  obtain ⟨k, hk, hlive⟩ : ∃ k, g.tail x = some k ∧ k ∈ g.nodes := by
    by_contra hno
    have hdead : ∀ k, g.tail x = some k → k ∉ g.nodes := fun k hk hmem => hno ⟨k, hk, hmem⟩
    rw [generic, add_of_tail_not_live hes.head_ne hdead] at hgeneric
    cases hgeneric
  obtain ⟨c, hc⟩ := Finmap.mem_iff.1 hlive
  obtain ⟨d, hd, hend⟩ := hes.last_cell
  rw [hk]
  by_contra hne
  have hke : k ≠ e.1 := fun heq => hne (congrArg some heq)
  cases block with
  | some b =>
    have hb : b.addr ∉ g.nodes := hfresh b rfl
    have hbk : b.addr ≠ k := fun heq => hb (heq ▸ hlive)
    have hbe : e.1 ≠ b.addr := (ne_of_fresh hb hd).symm
    by_cases hname : name.1.length < nameSize
    · obtain ⟨field, hfield, -⟩ := exists_field b hname
      rw [generic, add_behind hes.head_ne hk hc hbk hfield] at hgeneric
      cases hgeneric
      -- the last node is not written to, and has nothing behind it
      have hnext : (g.appended x k c b.addr item field).Entries x (es ++ e :: (b.addr, ⟨name.1, item⟩) :: []) := by
        simpa [newEntry] using happends
      obtain ⟨d', hd', hlink⟩ := hnext.next
      rw [appended, setTail_nodes, write_nodes, Finmap.lookup_insert_of_ne _ hbe, write_nodes,
        Finmap.lookup_insert_of_ne _ (Ne.symm hke), hd] at hd'
      obtain rfl := Option.some.inj hd'
      rw [hend] at hlink
      cases hlink
    · rw [generic, add_of_long hb hname] at hgeneric
      cases hgeneric
  | none =>
    by_cases hmem : k ∈ es.map Prod.fst
    · -- the list would end at this node
      obtain ⟨z, hz, rfl⟩ := List.mem_map.1 hmem
      obtain ⟨as, bs, rfl⟩ := List.append_of_mem hz
      obtain ⟨w, ws, hw⟩ : ∃ w ws, bs ++ [e] = w :: ws := by
        cases bs <;> exact ⟨_, _, rfl⟩
      rw [generic, add_behind_null hes.head_ne hk hc] at hgeneric
      cases hgeneric
      have hnext : ((g.write z.1 { c with next := none }).setTail x none).Entries x (as ++ z :: w :: ws) := by
        rw [← hw]
        simpa [newEntry] using happends
      obtain ⟨d', hd', hlink⟩ := hnext.next
      rw [setTail_nodes, write_nodes, Finmap.lookup_insert] at hd'
      obtain rfl := Option.some.inj hd'
      cases hlink
    · -- the node is not in the list, and might not be live
      have hnot : k ∉ (es ++ [e]).map Prod.fst := by simp [hmem, hke]
      have hsame : SameList x g (g.free k) := by
        refine ⟨rfl, rfl, fun fs hfs => ?_, fun _ => rfl⟩
        obtain rfl := hes.unique hfs
        exact hes.chain.erase hnot
      obtain ⟨h', hrun, -⟩ := h.own _ hsame fun b hb => by cases hb
      obtain ⟨-, g₁, hgeneric₁, -⟩ := generic_of_run (g := g.free k) (h.mdnsr hfresh) hrun
      have hhead : (g.free k).head x ≠ none := hes.head_ne
      have hdead : ∀ j, (g.free k).tail x = some j → j ∉ (g.free k).nodes := by
        intro j hj
        obtain rfl : k = j := Option.some.inj (hk.symm.trans hj)
        exact Finmap.notMem_erase_self
      rw [generic, add_of_tail_not_live hhead hdead] at hgeneric₁
      cases hgeneric₁

theorem IndependentAfter.works (h : IndependentAfter x op g r g') (hfresh : Fresh g op) (hes : g.Entries x es) :
    Works x g es op := by
  obtain ⟨hboxed, g'', hgeneric, -⟩ := generic_of_run (h.mdnsr hfresh) h.defined
  cases op with
  | delete name =>
    rintro rfl
    have hhead : g.head x = none := hes
    simp [generic, delete, hhead] at hgeneric
  | add item name callback block =>
    refine ⟨hboxed, fun hblock => ?_, fun e he => ?_⟩
    · obtain ⟨b, rfl⟩ := Option.ne_none_iff_exists'.1 hblock
      by_contra hname
      rw [generic, add_of_long (hfresh b rfl) hname] at hgeneric
      cases hgeneric
    · obtain ⟨xs, rfl⟩ := List.getLast?_eq_some_iff.1 he
      refine ⟨fun hx => ?_, h.tail hfresh hes rfl⟩
      rcases h.mdnsr hfresh hx with hnone | ⟨name', hop⟩
      · exact hes.head_ne hnone
      · cases hop

/-- **Only in order is an operation independent.** -/
theorem Independent.apart (h : Independent x op g) (hfresh : Fresh g op) : ∃ es, Apart x op g es := by
  obtain ⟨r, g', hafter⟩ := h
  obtain ⟨es, hes⟩ := hafter.exists_entries hfresh
  have hworks := hafter.works hfresh hes
  obtain ⟨r₁, g₁, g₁', hrun, heff, hmatches⟩ := hes.run hfresh hworks
  rw [hafter.defined] at hrun
  cases hrun
  exact ⟨es, hes, hworks, heff.unchanged_iff.1 (hmatches.unchanged_iff.1 hafter.others)⟩

end Lists

end Vdetelweb
