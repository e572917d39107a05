import Vdetelweb.Lib.Runs
import Vdetelweb.Spec.Sockets

/-!
# The three tables of sockets

`open_sockets` gets its entry before the result of the open is looked at, and both tables of
Python lose theirs before the close in C is known to have been made. So the tables agree along
a run exactly when no open fails, no close is turned down, and the list in C finds memory for each
new node, which nobody makes sure of (`agrees_iff`). The names that `pycoclib` makes come round after
2^32 connections.
-/

namespace Vdetelweb

open Adapter

/-- **The tables agree**: they have the same names, and no two objects share one. -/
structure Agree (m : SocketModule) : Prop where
  open_sockets : ∀ name, (m.open_sockets name).isSome ↔ name ∈ m.existing_sockets
  sockets : ∀ name, name ∈ m.sockets.map SocketBox.name ↔ name ∈ m.existing_sockets
  live : m.live.Nodup

/-- The tables have the names that they had. -/
structure SameNames (m m' : SocketModule) : Prop where
  existing : m'.existing_sockets = m.existing_sockets
  opened : ∀ name, (m'.open_sockets name).isSome = (m.open_sockets name).isSome
  sockets : m'.sockets = m.sockets

/-- The operation reports an error. -/
def Raises (m : SocketModule) (e : SocketOp) : Prop := ∃ x l, (e.act m).1 = .raise x l

/-- **A step leaves the tables in order**: they agree after it, and an error changes none. -/
def InOrder (m : SocketModule) (e : SocketOp) : Prop :=
  Agree (m.step e) ∧ (Raises m e → SameNames m (m.step e))

/-- **No table is left behind**: an open does not fail, a connection that is accepted does not
get the name of a socket that is still there, there is memory to put either in the list in C, and the
close of a socket is not turned down. -/
def Allowed (m : SocketModule) : SocketOp → Prop
  | .create answer memory => (∃ s, answer = .ok s) ∧ memory = true
  | .accept name answer memory => (∃ o s, m.open_sockets name = some o ∧ 0 < o.accept_semaphore ∧ answer = .ok s) →
      memory = true ∧ autoName m.autoSocketCount ∉ m.existing_sockets
  | .close name parsed _ => name ∈ m.existing_sockets → parsed = true
  | .wakeup .. => True

/-! ## Names -/

theorem defaultName_inj {j k : ℕ} (h : defaultName j = defaultName k) : j = k :=
  Nat.repr_injective (String.toList_injective (List.append_cancel_left h))

theorem defaultName_ne_autoName (k : ℕ) (c : BitVec 32) : defaultName k ≠ autoName c := by
  intro h
  -- after the underscores comes a digit, or a letter
  have hname : "__".toList ++ k.repr.toList =
      "__".toList ++ ("autosocket_".toList ++ (toString c.toInt).toList) := h
  have htail := List.append_cancel_left hname
  have ha : 'a' ∈ Nat.toDigits 10 k := by
    rw [← Nat.toList_repr, htail]
    exact List.mem_append_left _ (by decide)
  exact absurd (Nat.isDigit_of_mem_toDigits (by decide) (by decide) ha) (by decide)

/-! ## The tables of the adapter -/

/-- The tables of the adapter have the names that they had. -/
structure SameKeys (a a' : Adapter) : Prop where
  opened : ∀ name, (a'.open_sockets name).isSome = (a.open_sockets name).isSome
  sockets : a'.sockets = a.sockets
  tail : a'.tail_sock = a.tail_sock
  count : a'.autoSocketCount = a.autoSocketCount

theorem SameKeys.refl (a : Adapter) : SameKeys a a := ⟨fun _ => rfl, rfl, rfl, rfl⟩

theorem SameKeys.trans {a b c : Adapter} (h : SameKeys a b) (h' : SameKeys b c) : SameKeys a c :=
  ⟨fun name => (h'.opened name).trans (h.opened name), h'.sockets.trans h.sockets, h'.tail.trans h.tail,
    h'.count.trans h.count⟩

theorem SameKeys.put {a : Adapter} {name : Bytes} {o : SockObj} (h : a.open_sockets name = some o)
    (o' : SockObj) : SameKeys a (a.putOpenSocket name o') := by
  refine ⟨fun x => ?_, rfl, rfl, rfl⟩
  rw [Bool.eq_iff_iff, putOpenSocket_isSome, or_iff_left_iff_imp]
  rintro rfl
  rw [h]
  rfl

theorem SameKeys.tryV (a : Adapter) (V : SockObj → SockObj) (name : Bytes) : SameKeys a (a.tryV V name) := by
  unfold Adapter.tryV
  split
  · rename_i o h
    exact SameKeys.put h _
  · exact SameKeys.refl a

/-- **A callback of the stack** adds no name and removes none. -/
theorem SameKeys.wakeup (a : Adapter) (ev s : ℕ) : SameKeys a (a.dummyWakeupCallback ev s) := by
  have hif : ∀ (b : Bool) (a : Adapter) (V : SockObj → SockObj) (name : Bytes),
      SameKeys a (if b then a.tryV V name else a) := by
    intro b a V name
    cases b
    · exact SameKeys.refl a
    · exact SameKeys.tryV a V name
  unfold dummyWakeupCallback socketCallback
  dsimp only
  split
  · split
    · exact SameKeys.refl a
    · exact ((hif _ _ _ _).trans (hif _ _ _ _)).trans (hif _ _ _ _)
  · exact SameKeys.refl a

theorem socketBoxFind_isSome {a : Adapter} {name : Bytes} :
    (a.socketBoxFind name).isSome ↔ name ∈ a.sockets.map SocketBox.name := by
  unfold socketBoxFind
  rw [List.find?_isSome, List.mem_map]
  simp

/-- Of names that differ, the deletion removes the one. -/
theorem names_socketBoxDelete (a : Adapter) (name : Bytes) :
    (a.socketBoxDelete name).sockets.map SocketBox.name = (a.sockets.map SocketBox.name).erase name := by
  unfold socketBoxDelete
  dsimp only
  induction a.sockets with
  | nil => rfl
  | cons box boxes ih =>
    rw [List.eraseP_cons, List.map_cons, List.erase_cons]
    by_cases h : box.name = name
    · simp [h]
    · simp [h, ih]

/-! ## The invariant -/

/-- **In good order**: the tables agree, the list in C has no name twice, the objects are those
of `existing_sockets`, and a default name that is still to come is not among them. -/
structure Ordered (m : SocketModule) : Prop extends Agree m where
  tailed : m.Tailed
  nodup : (m.sockets.map SocketBox.name).Nodup
  mem_live : ∀ name, name ∈ m.live ↔ name ∈ m.existing_sockets
  names : ∀ name ∈ m.existing_sockets,
    (∃ k < m.DEFAULT_NAME_COUNTER, name = defaultName k) ∨ ∃ c, name = autoName c

variable {m : SocketModule}

theorem Ordered.fresh (h : Ordered m) : defaultName m.DEFAULT_NAME_COUNTER ∉ m.existing_sockets := by
  intro hmem
  rcases h.names _ hmem with ⟨k, hk, heq⟩ | ⟨c, heq⟩
  · exact absurd (defaultName_inj heq) (by omega)
  · exact defaultName_ne_autoName _ _ heq

theorem Ordered.closed (h : Ordered m) {name : Bytes} (hname : name ∉ m.existing_sockets) :
    m.open_sockets name = none := by
  rw [← Option.not_isSome_iff_eq_none, h.open_sockets]
  exact hname

/-- **A new socket in all three tables.** -/
theorem Ordered.add (h : Ordered m) {name : Bytes} (hname : name ∉ m.existing_sockets) {m' : SocketModule}
    {s : ℕ} (hopen : ∀ x, (m'.open_sockets x).isSome ↔ (m.open_sockets x).isSome ∨ x = name)
    (hsock : m'.sockets = m.sockets ++ [⟨name, s⟩]) (htail : m'.tail_sock = true)
    (hexist : m'.existing_sockets = insert name m.existing_sockets) (hlive : m'.live = m.live ++ [name])
    (hcount : m.DEFAULT_NAME_COUNTER ≤ m'.DEFAULT_NAME_COUNTER)
    (hnew : (∃ k < m'.DEFAULT_NAME_COUNTER, name = defaultName k) ∨ ∃ c, name = autoName c) :
    Ordered m' where
  tailed _ := htail
  open_sockets x := by rw [hopen, h.open_sockets, hexist, Finset.mem_insert, or_comm]
  sockets x := by
    rw [hsock, List.map_append, List.mem_append, h.sockets, hexist, Finset.mem_insert, or_comm]
    simp
  live := by
    rw [hlive]
    exact h.live.append (by simp) (by simpa [h.mem_live] using hname)
  nodup := by
    rw [hsock, List.map_append]
    exact h.nodup.append (by simp) (by simpa [h.sockets] using mt (h.sockets name).1 hname)
  mem_live x := by
    rw [hlive, List.mem_append, h.mem_live, hexist, Finset.mem_insert, or_comm]
    simp
  names x hx := by
    rw [hexist, Finset.mem_insert] at hx
    rcases hx with rfl | hx
    · exact hnew
    · rcases h.names x hx with ⟨k, hk, heq⟩ | hauto
      · exact Or.inl ⟨k, by omega, heq⟩
      · exact Or.inr hauto

/-- **A socket out of all three tables.** -/
theorem Ordered.remove (h : Ordered m) {name : Bytes} {m' : SocketModule}
    (hopen : ∀ x, (m'.open_sockets x).isSome ↔ (m.open_sockets x).isSome ∧ x ≠ name)
    (hsock : m'.sockets.map SocketBox.name = (m.sockets.map SocketBox.name).erase name) (htailed : m'.Tailed)
    (hexist : m'.existing_sockets = m.existing_sockets.erase name) (hlive : m'.live = m.live.erase name)
    (hcount : m'.DEFAULT_NAME_COUNTER = m.DEFAULT_NAME_COUNTER) : Ordered m' where
  tailed := htailed
  open_sockets x := by rw [hopen, h.open_sockets, hexist, Finset.mem_erase, and_comm]
  sockets x := by rw [hsock, h.nodup.mem_erase_iff, h.sockets, hexist, Finset.mem_erase]
  live := by rw [hlive]; exact h.live.erase name
  nodup := by rw [hsock]; exact h.nodup.erase name
  mem_live x := by rw [hlive, h.live.mem_erase_iff, h.mem_live, hexist, Finset.mem_erase]
  names x hx := by
    rw [hexist] at hx
    rw [hcount]
    exact h.names x (Finset.mem_of_mem_erase hx)

/-- Only the entries of `open_sockets` have changed. -/
theorem Ordered.same (h : Ordered m) {n : SocketModule} (hkeys : SameKeys m.toAdapter n.toAdapter)
    (hexist : n.existing_sockets = m.existing_sockets) (hlive : n.live = m.live)
    (hcount : n.DEFAULT_NAME_COUNTER = m.DEFAULT_NAME_COUNTER) : Ordered n ∧ SameNames m n := by
  refine ⟨⟨⟨fun x => ?_, fun x => ?_, ?_⟩, fun hne => ?_, ?_, fun x => ?_, fun x hx => ?_⟩, hexist, hkeys.opened,
    hkeys.sockets⟩
  · rw [hkeys.opened, h.open_sockets, hexist]
  · rw [hkeys.sockets, h.sockets, hexist]
  · rw [hlive]; exact h.live
  · rw [hkeys.sockets] at hne
    exact hkeys.tail.trans (h.tailed hne)
  · rw [hkeys.sockets]; exact h.nodup
  · rw [hlive, h.mem_live, hexist]
  · rw [hexist] at hx
    rw [hcount]
    exact h.names x hx

/-- **A step that takes no name in or out** leaves the tables in order. -/
theorem Ordered.quiet (h : Ordered m) {e : SocketOp} (hkeys : SameKeys m.toAdapter (m.step e).toAdapter)
    (hexist : (m.step e).existing_sockets = m.existing_sockets) (hlive : (m.step e).live = m.live)
    (hcount : (m.step e).DEFAULT_NAME_COUNTER = m.DEFAULT_NAME_COUNTER) :
    InOrder m e ∧ Ordered (m.step e) := by
  obtain ⟨hord, hsame⟩ := h.same hkeys hexist hlive hcount
  exact ⟨⟨hord.toAgree, fun _ => hsame⟩, hord⟩

/-- A step that changes nothing. -/
theorem Ordered.stays (h : Ordered m) {e : SocketOp} (hstep : m.step e = m) :
    InOrder m e ∧ Ordered (m.step e) :=
  h.quiet (by rw [hstep]; exact SameKeys.refl _) (by rw [hstep]) (by rw [hstep]) (by rw [hstep])

/-! ## The functions of the adapter -/

section

variable {a : Adapter} {name : Bytes}

theorem socketOpen_ok (h : a.open_sockets name = none) {s : ℕ} {memory : Bool} {r : ℤ} {a' : Adapter}
    (hadd : a.socketBoxAdd name s memory = some (r, a')) :
    socketOpen name (.ok s) memory a = (.ret (some IS_OK), a'.addOpenSocket name) := by
  have hrun : a.pycoclibOpen name (.ok s) memory = some (IS_OK, a') := by
    show (a.socketBoxAdd name s memory).bind _ = _
    rw [hadd]
    rfl
  unfold socketOpen
  rw [h, hrun]
  rfl

/-- **An open that fails** leaves an entry. -/
theorem socketOpen_error (h : a.open_sockets name = none) (r : Refusal) (memory : Bool) :
    ∃ x l, socketOpen name (.error r) memory a = (.raise x l, a.addOpenSocket name) := by
  unfold socketOpen
  rw [h]
  cases r
  all_goals exact ⟨_, _, rfl⟩

theorem socketClose_ok (hopen : (a.open_sockets name).isSome) (hfind : (a.socketBoxFind name).isSome)
    (closed : Bool) : ∃ r, socketClose name true closed a =
      (.ret r, (a.socketBoxDelete name).delOpenSocket name) := by
  obtain ⟨o, ho⟩ := Option.isSome_iff_exists.1 hopen
  obtain ⟨box, hbox⟩ := Option.isSome_iff_exists.1 hfind
  have ho' : (a.socketBoxDelete name).open_sockets name = some o := ho
  unfold socketClose pycoclibClose
  simp only [if_true, hbox, ho']
  cases closed
  all_goals exact ⟨_, rfl⟩

/-- **A close that is turned down** takes the entry away, and not the name in C. -/
theorem socketClose_not_parsed (hopen : (a.open_sockets name).isSome) (closed : Bool) :
    socketClose name false closed a = (.raise .configuration 436, a.delOpenSocket name) := by
  obtain ⟨o, ho⟩ := Option.isSome_iff_exists.1 hopen
  unfold socketClose pycoclibClose
  simp only [Bool.false_eq_true, if_false, ho]
  rfl

/-- **An accept** does not get to the stack, or waits, or fails and has only acquired the
semaphore, or makes a socket. -/
theorem socketAccept_cases (name : Bytes) (answer : Except Refusal ℕ) (memory : Bool) (a : Adapter) :
    (a.open_sockets name = none ∧ socketAccept name answer memory a = (.raise .keyError 477, a)) ∨
    (∃ o, a.open_sockets name = some o ∧ o.accept_semaphore = 0 ∧
      socketAccept name answer memory a = (.block, a)) ∨
    (∃ o o', a.open_sockets name = some o ∧ 0 < o.accept_semaphore ∧
      ((∀ s, answer = .ok s → a.socketBoxFind name = none) ∧
          socketAccept name answer memory a = (.raise .typeError 481, a.putOpenSocket name o') ∨
        ∃ s, answer = .ok s ∧ ∀ r a', { a.putOpenSocket name o' with
            autoSocketCount := a.autoSocketCount + 1 }.socketBoxAdd (autoName a.autoSocketCount) s memory =
              some (r, a') → socketAccept name answer memory a =
          (.ret (autoName a.autoSocketCount), a'.addOpenSocket (autoName a.autoSocketCount)))) := by
  unfold socketAccept
  cases ho : a.open_sockets name with
  | none => exact Or.inl ⟨rfl, rfl⟩
  | some o =>
    refine Or.inr ?_
    cases hsem : o.accept_semaphore with
    | zero =>
      refine Or.inl ⟨o, rfl, hsem, ?_⟩
      simp [SockObj.pAccept, waitonSem, hsem]
    | succ semaphore =>
      set o' : SockObj := { o with accept_semaphore := semaphore, accept_count := o.accept_count - 1 }
      have hp : o.pAccept = some o' := by simp [SockObj.pAccept, waitonSem, hsem, o']
      refine Or.inr ⟨o, o', rfl, by omega, ?_⟩
      have hfind : (a.putOpenSocket name o').socketBoxFind name = a.socketBoxFind name := rfl
      simp only [hp, pycoclibAccept, hfind]
      rcases answer with r | s
      · left
        refine ⟨fun s hs => (by cases hs), ?_⟩
        cases r <;> cases a.socketBoxFind name <;> rfl
      · cases hbox : a.socketBoxFind name with
        | none => exact Or.inl ⟨fun _ _ => rfl, rfl⟩
        | some box =>
          refine Or.inr ⟨s, rfl, fun r a' hadd => ?_⟩
          have hadd' : ({ a.putOpenSocket name o' with
              autoSocketCount := (a.putOpenSocket name o').autoSocketCount + 1 } : Adapter).socketBoxAdd
                (autoName (a.putOpenSocket name o').autoSocketCount) s memory = some (r, a') := hadd
          simp only [hadd', Option.bind_eq_bind, Option.bind_some]
          rfl

end

/-! ## The operations -/

theorem onAdapter_apply {α : Type} (x : AdapterAct α) (m : SocketModule) :
    onAdapter x m = ((x m.toAdapter).1, { m with toAdapter := (x m.toAdapter).2 }) := rfl

/-- **`Socket()`** keeps the order exactly when the open does not fail, and its name is put in the list. -/
theorem Ordered.create (h : Ordered m) (answer : Except Refusal ℕ) (memory : Bool) :
    (InOrder m (.create answer memory) ↔ (∃ s, answer = .ok s) ∧ memory = true) ∧
      ∀ s, answer = .ok s → memory = true → Ordered (m.step (.create answer memory)) := by
  set name := defaultName m.DEFAULT_NAME_COUNTER with hname
  have hclosed : m.toAdapter.open_sockets name = none := h.closed h.fresh
  have hok : ∀ {s memory r a'}, m.toAdapter.socketBoxAdd name s memory = some (r, a') →
      createSocket (.ok s) memory m = (.ret (), { m with
        toAdapter := a'.addOpenSocket name
        existing_sockets := insert name m.existing_sockets
        DEFAULT_NAME_COUNTER := m.DEFAULT_NAME_COUNTER + 1
        live := m.live ++ [name] }) := by
    intro s memory r a' hadd
    unfold createSocket
    simp only [Effect.Act.bind_apply, Effect.Act.get_apply, Effect.Act.modify_apply, onAdapter_apply,
      ← hname, socketOpen_ok hclosed hadd]
    rfl
  have hord : ∀ s, answer = .ok s → memory = true → Ordered (m.step (.create answer memory)) := by
    rintro s rfl rfl
    unfold SocketModule.step
    rw [SocketOp.act, hok (h.tailed.add name s)]
    refine h.add h.fresh (fun x => ?_) rfl rfl rfl rfl (Nat.le_succ _) (Or.inl ⟨_, Nat.lt_succ_self _, rfl⟩)
    exact putOpenSocket_isSome _ _ _ _
  refine ⟨⟨fun hin => ?_, ?_⟩, hord⟩
  · rcases answer with r | s
    · -- the entry stays, and the object is not there
      obtain ⟨x, l, hrun⟩ := socketOpen_error hclosed r memory
      have hstep : m.step (.create (.error r) memory) = { m with
          toAdapter := m.addOpenSocket name, DEFAULT_NAME_COUNTER := m.DEFAULT_NAME_COUNTER + 1 } := by
        unfold SocketModule.step SocketOp.act createSocket
        simp only [Effect.Act.bind_apply, Effect.Act.get_apply, Effect.Act.modify_apply, onAdapter_apply,
          ← hname, hrun]
      have hagree := hin.1.open_sockets name
      rw [hstep] at hagree
      exact absurd (hagree.1 ((putOpenSocket_isSome _ _ _ _).2 (Or.inr rfl))) h.fresh
    · refine ⟨⟨s, rfl⟩, ?_⟩
      cases memory with
      | true => rfl
      | false =>
        -- the name is in both tables of Python, and not in the list
        obtain ⟨tail, hadd⟩ := h.tailed.add_none name s
        have hagree := hin.1.sockets name
        unfold SocketModule.step at hagree
        rw [SocketOp.act, hok hadd] at hagree
        exact absurd ((h.sockets name).1 (hagree.2 (Finset.mem_insert_self ..))) h.fresh
  · rintro ⟨⟨s, rfl⟩, rfl⟩
    refine ⟨(hord s rfl rfl).toAgree, ?_⟩
    rintro ⟨x, l, hx⟩
    rw [SocketOp.act, hok (h.tailed.add name s)] at hx
    cases hx

/-- **A connection that is accepted** keeps the order exactly when its name is not taken, and is put in
the list. -/
theorem Ordered.accepted (h : Ordered m) {name new : Bytes} {o o' : SockObj} {s : ℕ} {memory : Bool}
    (ho : m.open_sockets name = some o) (hnew : new = autoName m.autoSocketCount)
    (hrun : ∀ r a', { m.putOpenSocket name o' with
      autoSocketCount := m.autoSocketCount + 1 }.socketBoxAdd new s memory = some (r, a') →
        socketAccept name (.ok s) memory m.toAdapter = (.ret new, a'.addOpenSocket new)) :
    (InOrder m (.accept name (.ok s) memory) ↔ memory = true ∧ new ∉ m.existing_sockets) ∧
      (memory = true ∧ new ∉ m.existing_sockets → Ordered (m.step (.accept name (.ok s) memory))) := by
  set a₁ : Adapter := { m.putOpenSocket name o' with autoSocketCount := m.autoSocketCount + 1 } with ha₁
  have htailed : a₁.Tailed := h.tailed
  have hact : ∀ {r a'}, a₁.socketBoxAdd new s memory = some (r, a') →
      acceptSocket name (.ok s) memory m = (.ret (), { m with
        toAdapter := a'.addOpenSocket new
        existing_sockets := insert new m.existing_sockets
        live := m.live ++ [new] }) := by
    intro r a' hadd
    unfold acceptSocket
    simp only [Effect.Act.bind_apply, onAdapter_apply, hrun r a' hadd]
    rfl
  cases memory with
  | false =>
    refine ⟨iff_of_false (fun hin => ?_) (by simp), by simp⟩
    obtain ⟨tail, hadd⟩ := htailed.add_none new s
    have hsockets := hin.1.sockets new
    have hlive := hin.1.live
    unfold SocketModule.step at hsockets hlive
    rw [SocketOp.act, hact hadd] at hsockets hlive
    -- the name is not in the list, unless it was there before, and then it is there twice
    have hmem : new ∈ m.existing_sockets := (h.sockets new).1 (hsockets.2 (Finset.mem_insert_self ..))
    have := List.disjoint_of_nodup_append hlive ((h.mem_live new).2 hmem)
    simp at this
  | true =>
    have hord : new ∉ m.existing_sockets → Ordered (m.step (.accept name (.ok s) true)) := by
      intro hfresh
      unfold SocketModule.step
      rw [SocketOp.act, hact (htailed.add new s)]
      refine h.add hfresh (fun x => ?_) rfl rfl rfl rfl le_rfl (Or.inr ⟨_, hnew⟩)
      have := (SameKeys.put ho o').opened x
      exact (putOpenSocket_isSome _ _ _ _).trans (or_congr_left (by rw [← this]))
    refine ⟨⟨fun hin => ⟨rfl, fun hmem => ?_⟩, fun hf => ⟨(hord hf.2).toAgree, ?_⟩⟩, fun hf => hord hf.2⟩
    · -- the name is there twice
      have hlive := hin.1.live
      unfold SocketModule.step at hlive
      rw [SocketOp.act, hact (htailed.add new s)] at hlive
      have := List.disjoint_of_nodup_append hlive ((h.mem_live new).2 hmem)
      simp at this
    · rintro ⟨x, l, hx⟩
      rw [SocketOp.act, hact (htailed.add new s)] at hx
      cases hx

/-- **`accept`** keeps the order exactly when a new connection gets a name of its own in the list. -/
theorem Ordered.accept (h : Ordered m) (name : Bytes) (answer : Except Refusal ℕ) (memory : Bool) :
    (InOrder m (.accept name answer memory) ↔ Allowed m (.accept name answer memory)) ∧
      (Allowed m (.accept name answer memory) → Ordered (m.step (.accept name answer memory))) := by
  rcases socketAccept_cases name answer memory m.toAdapter with
    ⟨ho, hrun⟩ | ⟨o, ho, hsem, hrun⟩ | ⟨o, o', ho, hsem, ⟨hfind, hrun⟩ | ⟨s, rfl, hrun⟩⟩
  · -- there is no such socket
    have hact : acceptSocket name answer memory m = (.raise .keyError 477, m) := by
      unfold acceptSocket
      simp only [Effect.Act.bind_apply, onAdapter_apply, hrun]
    have hallowed : Allowed m (.accept name answer memory) := by
      rintro ⟨o, s, ho', -⟩
      rw [show m.open_sockets name = none from ho] at ho'
      cases ho'
    obtain ⟨hin, hord⟩ := h.stays (e := .accept name answer memory) (congrArg Prod.snd hact)
    exact ⟨iff_of_true hin hallowed, fun _ => hord⟩
  · -- there is no connection yet
    have hact : acceptSocket name answer memory m = (.block, m) := by
      unfold acceptSocket
      simp only [Effect.Act.bind_apply, onAdapter_apply, hrun]
    have hallowed : Allowed m (.accept name answer memory) := by
      rintro ⟨o', s, ho', hpos, -⟩
      rw [show m.open_sockets name = some o from ho] at ho'
      cases ho'
      omega
    obtain ⟨hin, hord⟩ := h.stays (e := .accept name answer memory) (congrArg Prod.snd hact)
    exact ⟨iff_of_true hin hallowed, fun _ => hord⟩
  · -- nothing is registered
    have hstep : m.step (.accept name answer memory) = { m with toAdapter := m.putOpenSocket name o' } := by
      unfold SocketModule.step SocketOp.act acceptSocket
      simp only [Effect.Act.bind_apply, onAdapter_apply, hrun]
    have hallowed : Allowed m (.accept name answer memory) := by
      rintro ⟨-, s, -, -, hs⟩
      have hno := hfind s hs
      have hsome := socketBoxFind_isSome.2 ((h.sockets name).2 ((h.open_sockets name).1 (by
        rw [show m.open_sockets name = some o from ho]; rfl)))
      rw [hno] at hsome
      cases hsome
    obtain ⟨hin, hord⟩ := h.quiet (e := .accept name answer memory) (by rw [hstep]; exact SameKeys.put ho o')
      (by rw [hstep]) (by rw [hstep]) (by rw [hstep])
    exact ⟨iff_of_true hin hallowed, fun _ => hord⟩
  · -- a socket is made
    have hallowed : Allowed m (.accept name (.ok s) memory) ↔
        memory = true ∧ autoName m.autoSocketCount ∉ m.existing_sockets :=
      ⟨fun hal => hal ⟨o, s, ho, hsem, rfl⟩, fun hf _ => hf⟩
    rw [hallowed]
    exact h.accepted ho rfl hrun

/-- **`close`** keeps the order exactly when the close of a socket is not turned down. -/
theorem Ordered.close (h : Ordered m) (name : Bytes) (parsed closed : Bool) :
    (InOrder m (.close name parsed closed) ↔ (name ∈ m.existing_sockets → parsed = true)) ∧
      ((name ∈ m.existing_sockets → parsed = true) → Ordered (m.step (.close name parsed closed))) := by
  by_cases hmem : name ∈ m.existing_sockets
  · have hopen := (h.open_sockets name).2 hmem
    have hbox := (h.sockets name).2 hmem
    cases parsed with
    | false =>
      have hstep : m.step (.close name false closed) = { m with
          toAdapter := m.delOpenSocket name
          existing_sockets := m.existing_sockets.erase name
          live := m.live.erase name } := by
        unfold SocketModule.step SocketOp.act closeSocket
        simp [Effect.Act.bind_apply, onAdapter_apply, hmem, socketClose_not_parsed hopen]
      refine ⟨iff_of_false (fun hin => ?_) (by simp [hmem]), by simp [hmem]⟩
      -- the name is still in the list in C
      have hagree := hin.1.sockets name
      rw [hstep] at hagree
      simpa using hagree.1 hbox
    | true =>
      obtain ⟨r, hrun⟩ := socketClose_ok hopen (socketBoxFind_isSome.2 hbox) closed
      have hact : closeSocket name true closed m = (.ret (), { m with
          toAdapter := (m.socketBoxDelete name).delOpenSocket name
          existing_sockets := m.existing_sockets.erase name
          live := m.live.erase name }) := by
        unfold closeSocket
        simp [Effect.Act.bind_apply, onAdapter_apply, hmem, hrun]
      have hord : Ordered (m.step (.close name true closed)) := by
        unfold SocketModule.step
        rw [SocketOp.act, hact]
        refine h.remove (fun x => ?_) (names_socketBoxDelete m.toAdapter name) (h.tailed.delete name) rfl rfl rfl
        exact delOpenSocket_isSome _ _ _
      refine ⟨iff_of_true ⟨hord.toAgree, ?_⟩ fun _ => rfl, fun _ => hord⟩
      rintro ⟨x, l, hx⟩
      rw [SocketOp.act, hact] at hx
      cases hx
  · -- the object is closed already
    have hstep : m.step (.close name parsed closed) = m := by
      unfold SocketModule.step SocketOp.act closeSocket
      simp [Effect.Act.bind_apply, hmem]
    obtain ⟨hin, hord⟩ := h.stays hstep
    exact ⟨iff_of_true hin fun hf => absurd hf hmem, fun _ => hord⟩

/-- **One step.** -/
theorem Ordered.step (h : Ordered m) (e : SocketOp) :
    (InOrder m e ↔ Allowed m e) ∧ (Allowed m e → Ordered (m.step e)) := by
  cases e with
  | create answer memory =>
    obtain ⟨hiff, hord⟩ := h.create answer memory
    exact ⟨hiff, fun ⟨⟨s, hs⟩, hmemory⟩ => hord s hs hmemory⟩
  | accept name answer memory => exact h.accept name answer memory
  | close name parsed closed => exact h.close name parsed closed
  | wakeup ev s =>
    obtain ⟨hin, hord⟩ := h.quiet (e := .wakeup ev s) (SameKeys.wakeup m.toAdapter ev s) rfl rfl rfl
    exact ⟨iff_of_true hin trivial, fun _ => hord⟩

theorem ordered_start : Ordered ({} : SocketModule) where
  open_sockets := by simp
  tailed hne := absurd rfl hne
  sockets := by simp
  live := by simp
  nodup := by simp
  mem_live := by simp
  names := by simp

/-- **The tables agree along a run, and no error changes them, if and only if no open fails, no
connection gets a name that is taken, each finds memory in the list, and no close of a socket is turned
down.** -/
theorem agrees_iff (es : List SocketOp) :
    Runs.Along SocketModule.step InOrder {} es ↔ Runs.Along SocketModule.step Allowed {} es :=
  Runs.along_congr (I := Ordered) (fun _ e h => (h.step e).1) (fun _ e h => (h.step e).2) es _ ordered_start

/-- The stack has no socket to give. -/
theorem agrees_refused : ¬ ∀ es : List SocketOp, Runs.Along SocketModule.step InOrder {} es := by
  intro h
  obtain ⟨⟨s, hs⟩, -⟩ := (ordered_start.create (.error .stack) true).1.1 (h [.create (.error .stack) true]).1
  cases hs

end Vdetelweb
